import Mathlib.Logic.Function.Basic
import NssFactory.Lib.Calls
import NssFactory.Lib.Ledger
import NssFactory.Lib.Steps
import NssFactory.Lib.Table

/-!
# The page-lock table

`frontend/frame_memory.cpp`: the blocks of the frame pools of any number of cores, locked for DMA
by any number of filter instances. `attach_mu` and `mu` make sections of the source one step
each; what a thread does between two sections of `mu` is not one step with them, so `pinned` is
three: look-up, the backend's `lock`, commit. The destructor keeps `attach_mu` while it erases
the core's locks and removes the hook.

VapourSynth's side is in the steps: a block is not released while a frame of it is held, the
hook runs before the memory goes, and a filter is freed after its calls. Sizes are those of
blocks in one address space and do not overflow. A handle names its registration; 0 is
`nullptr`. The counts that are only printed are left out.
-/

namespace NssFactory.FrameMemory

open Table

inductive BlockState
  | seen | locking | locked | failed
  deriving DecidableEq

structure Block where
  base : Nat
  domain : Nat
  size : Nat
  core : Nat
  state : BlockState
  handle : Nat
  deriving DecidableEq

def Block.key (b : Block) : Nat × Nat := (b.base, b.domain)

structure CoreLocks where
  cap : Nat
  bytes : Nat

/-- A call of the backend's `lock` that gave a handle. -/
structure Registration where
  core : Nat
  domain : Nat
  base : Nat
  size : Nat
  handle : Nat
  deriving DecidableEq

/-- A filter instance. -/
structure Instance where
  core : Nat
  domain : Nat
  attached : Bool

/-- Where a call of `pinned` is. It holds its frame until it has ended. -/
inductive Phase
  | lookup
  | locking
  | registered (handle : Nat)
  | returned (plane : Option (Nat × Nat))
  | ended

structure Pinned where
  self : Nat
  core : Nat
  domain : Nat
  base : Nat
  size : Nat
  offset : Nat
  phase : Phase

/-- Where the destructor of a core's last instance is. -/
inductive Removal
  | locks | hook

structure Sys where
  cores : Nat → Nat
  domains : Nat × Nat → Nat
  blocks : List Block
  locks : Nat → Option CoreLocks
  lockedBytes : Nat
  attachMu : Option (Nat × Removal)
  /-- The release hooks that VapourSynth has. -/
  hooks : Nat → Bool
  /-- The live blocks of VapourSynth's pools: core and size. -/
  memory : Nat → Option (Nat × Nat)
  instances : List Instance
  calls : List Pinned
  registered : List Registration
  unregistered : List Registration

namespace Sys

def init : Sys where
  cores _ := 0
  domains _ := 0
  blocks := []
  locks _ := none
  lockedBytes := 0
  attachMu := none
  hooks _ := false
  memory _ := none
  instances := []
  calls := []
  registered := []
  unregistered := []

variable (s : Sys)

/-- `locks[core]` -/
def locksOf (core : Nat) : CoreLocks := (s.locks core).getD ⟨0, 0⟩

def unlockBlock (b : Block) : Sys :=
  if b.state ≠ .locked then s
  else { s with
    unregistered := ⟨b.core, b.domain, b.base, b.size, b.handle⟩ :: s.unregistered
    blocks := put Block.key { b with state := .seen, handle := 0 } s.blocks
    lockedBytes := s.lockedBytes - b.size
    locks := Function.update s.locks b.core
      (some { s.locksOf b.core with bytes := (s.locksOf b.core).bytes - b.size }) }

/-- Unlock a block and erase it. -/
def dropBlock (b : Block) : Sys :=
  let s := s.unlockBlock b
  { s with blocks := others Block.key b.key s.blocks }

/-- The loops of `on_release` and of the destructor over the blocks of a kind. -/
def dropBlocks (p : Block → Bool) : Sys := (s.blocks.filter p).foldl dropBlock s

def onRelease (base : Nat) : Sys := s.dropBlocks fun b => b.base == base

/-- The constructor: the first instance on a core adds the hook, which may fail. -/
def attach (core domain : Nat) (hooked : Bool) (cap : Nat) : Sys :=
  if s.cores core = 0 ∧ !hooked then s
  else
    let s := if s.cores core = 0 then { s with
        hooks := Function.update s.hooks core true
        locks := Function.update s.locks core (some ⟨cap, 0⟩) }
      else s
    { s with
      cores := Function.update s.cores core (s.cores core + 1)
      domains := Function.update s.domains (core, domain) (s.domains (core, domain) + 1)
      instances := s.instances ++ [⟨core, domain, true⟩] }

/-- The destructor up to the core's count, which only `attach_mu` guards. -/
def detach (i : Nat) (m : Instance) : Sys :=
  let s := { s with
    instances := s.instances.set i { m with attached := false }
    domains := Function.update s.domains (m.core, m.domain) (s.domains (m.core, m.domain) - 1) }
  let s := if s.domains (m.core, m.domain) = 0 then
      s.dropBlocks fun b => b.core == m.core && b.domain == m.domain
    else s
  let s := { s with cores := Function.update s.cores m.core (s.cores m.core - 1) }
  if 0 < s.cores m.core then s else { s with attachMu := some (m.core, .locks) }

/-- The pool frees a block: the hook first, where there is one. -/
def release (base core : Nat) : Sys :=
  let s := if s.hooks core then s.onRelease base else s
  { s with memory := Function.update s.memory base none }

def setPhase (k : Nat) (c : Pinned) (phase : Phase) : Sys :=
  { s with calls := s.calls.set k { c with phase := phase } }

/-- The first section of `pinned`. -/
def lookup (k : Nat) (c : Pinned) : Sys :=
  match find Block.key (c.base, c.domain) s.blocks with
  | none =>
    { s with blocks := put Block.key ⟨c.base, c.domain, c.size, c.core, .seen, 0⟩ s.blocks }.setPhase
      k c (.returned none)
  | some block =>
    if block.state ≠ .seen ∨ block.size ≠ c.size then
      s.setPhase k c (.returned
        (if block.state = .locked ∧ block.size = c.size then some (block.handle, c.offset)
          else none))
    else
      let locks := s.locksOf c.core
      if locks.cap < locks.bytes + c.size then
        { s with locks := Function.update s.locks c.core (some locks) }.setPhase k c
          (.returned none)
      else
        { s with
          locks := Function.update s.locks c.core
            (some { locks with bytes := locks.bytes + c.size })
          blocks := put Block.key { block with state := .locking } s.blocks }.setPhase k c .locking

/-- The backend's `lock`, under no mutex. -/
def register (k : Nat) (c : Pinned) (ok : Bool) : Sys :=
  if ok then
    let handle := s.registered.length + 1
    { s with registered := ⟨c.core, c.domain, c.base, c.size, handle⟩ :: s.registered }.setPhase
      k c (.registered handle)
  else s.setPhase k c (.registered 0)

/-- The second section of `pinned`. -/
def commit (k : Nat) (c : Pinned) (handle : Nat) : Sys :=
  let block := (find Block.key (c.base, c.domain) s.blocks).getD
    ⟨c.base, c.domain, 0, 0, .seen, 0⟩
  let block := { block with
    state := if handle ≠ 0 then .locked else .failed
    handle := handle }
  let s := { s with blocks := put Block.key block s.blocks }
  let s := if handle ≠ 0 then { s with lockedBytes := s.lockedBytes + c.size }
    else { s with
      locks := Function.update s.locks c.core
        (some { s.locksOf c.core with bytes := (s.locksOf c.core).bytes - c.size }) }
  s.setPhase k c (.returned (if handle ≠ 0 then some (handle, c.offset) else none))

end Sys

/-- The place of the plane in its block; `none` for a pointer outside it. -/
def planeOffset (data : Option Nat) (base size : Nat) : Option Nat :=
  match data with
  | none => some 0
  | some at_ => if at_ < base ∨ size ≤ at_ - base then none else some (at_ - base)

/-- A call on a frame whose plane is in the block. -/
def enter (self : Nat) (m : Instance) (base size : Nat) (data : Option Nat) : Pinned :=
  match planeOffset data base size with
  | none => ⟨self, m.core, m.domain, base, size, 0, .returned none⟩
  | some offset => ⟨self, m.core, m.domain, base, size, offset, .lookup⟩

inductive Event
  | attach (core domain : Nat) (hooked : Bool) (cap : Nat)
  | detach (i : Nat)
  | eraseLocks
  | removeHook
  | alloc (base core size : Nat)
  | release (base : Nat)
  | enter (i base : Nat) (data : Option Nat)
  | lookup (k : Nat)
  | register (k : Nat) (ok : Bool)
  | commit (k : Nat)
  | finish (k : Nat)

inductive Step (s : Sys) : Event → Sys → Prop
  | attach {core domain cap : Nat} {hooked : Bool} : s.attachMu = none →
      Step s (.attach core domain hooked cap) (s.attach core domain hooked cap)
  | detach {i : Nat} {m : Instance} : s.attachMu = none → s.instances[i]? = some m →
      m.attached = true → (∀ c ∈ s.calls, c.self = i → c.phase = .ended) →
      Step s (.detach i) (s.detach i m)
  | eraseLocks {core : Nat} : s.attachMu = some (core, .locks) →
      Step s .eraseLocks
        { s with locks := Function.update s.locks core none, attachMu := some (core, .hook) }
  | removeHook {core : Nat} : s.attachMu = some (core, .hook) →
      Step s .removeHook
        { s with hooks := Function.update s.hooks core false, attachMu := none }
  | alloc {base core size : Nat} : s.memory base = none →
      Step s (.alloc base core size)
        { s with memory := Function.update s.memory base (some (core, size)) }
  | release {base core size : Nat} : s.memory base = some (core, size) →
      (∀ c ∈ s.calls, c.base = base → c.phase = .ended) →
      Step s (.release base) (s.release base core)
  | enter {i base size : Nat} {m : Instance} {data : Option Nat} : s.instances[i]? = some m →
      m.attached = true → s.memory base = some (m.core, size) →
      Step s (.enter i base data) { s with calls := s.calls ++ [enter i m base size data] }
  | lookup {k : Nat} {c : Pinned} : s.calls[k]? = some c → c.phase = .lookup →
      Step s (.lookup k) (s.lookup k c)
  | register {k : Nat} {c : Pinned} {ok : Bool} : s.calls[k]? = some c → c.phase = .locking →
      Step s (.register k ok) (s.register k c ok)
  | commit {k : Nat} {c : Pinned} {handle : Nat} : s.calls[k]? = some c →
      c.phase = .registered handle → Step s (.commit k) (s.commit k c handle)
  | finish {k : Nat} {c : Pinned} {plane : Option (Nat × Nat)} : s.calls[k]? = some c →
      c.phase = .returned plane → Step s (.finish k) (s.setPhase k c .ended)

/-! ## What holds in every state -/

def Pinned.key (c : Pinned) : Nat × Nat := (c.base, c.domain)

/-- The call has a block in the state `locking`. -/
def Pinned.busy (c : Pinned) : Bool :=
  match c.phase with
  | .locking | .registered _ => true
  | _ => false

/-- What the call has registered and not yet written down. -/
def Pinned.registration (c : Pinned) : Option Registration :=
  match c.phase with
  | .registered handle =>
    if handle ≠ 0 then some ⟨c.core, c.domain, c.base, c.size, handle⟩ else none
  | _ => none

def Block.registration (b : Block) : Option Registration :=
  if b.state = .locked then some ⟨b.core, b.domain, b.base, b.size, b.handle⟩ else none

/-- The block is in the byte count of core `c`. -/
abbrev Charged (c : Nat) (b : Block) : Prop :=
  b.core = c ∧ (b.state = .locking ∨ b.state = .locked)

namespace Sys

/-- What is registered and not unregistered. -/
def openRegistrations (s : Sys) : List Registration :=
  s.blocks.filterMap Block.registration ++ s.calls.filterMap Pinned.registration

/-- The counts of instances, the hooks and the locks of the cores they are on. -/
structure Attached (s : Sys) : Prop where
  cores_eq : ∀ c, s.cores c = s.instances.countP fun m => m.attached && m.core == c
  domains_eq : ∀ c d, s.domains (c, d) =
    s.instances.countP fun m => m.attached && (m.core == c && m.domain == d)
  hook : ∀ c, 0 < s.cores c → s.hooks c = true
  locks : ∀ c, 0 < s.cores c → ∃ l, s.locks c = some l
  idle : ∀ c r, s.attachMu = some (c, r) → s.cores c = 0

/-- The entries are of live blocks and attached instances. -/
structure Placed (s : Sys) : Prop where
  keys : (s.blocks.map Block.key).Nodup
  block_live : ∀ b ∈ s.blocks, s.memory b.base = some (b.core, b.size)
  block_attached : ∀ b ∈ s.blocks, 0 < s.domains (b.core, b.domain)
  call_live : ∀ c ∈ s.calls, c.phase ≠ .ended → s.memory c.base = some (c.core, c.size)
  call_attached : ∀ c ∈ s.calls, c.phase ≠ .ended →
    ∃ m, s.instances[c.self]? = some m ∧ m.attached = true ∧ m.core = c.core ∧ m.domain = c.domain

/-- The byte counts are the sums over the blocks, and what was registered is open or was
unregistered. -/
structure Booked (s : Sys) : Prop where
  busy : ((s.calls.filter Pinned.busy).map Pinned.key).Perm
    ((s.blocks.filter (·.state = .locking)).map Block.key)
  bytes : ∀ c l, s.locks c = some l →
    l.bytes = Ledger.total Block.size (Charged c) s.blocks ∧ l.bytes ≤ l.cap
  locked : s.lockedBytes = Ledger.total Block.size (·.state = .locked) s.blocks
  registry : s.registered.Perm (s.unregistered ++ s.openRegistrations)
  serial : ∀ r ∈ s.registered, r.handle ≤ s.registered.length
  nodup : s.registered.Nodup

/-- What a section leaves alone that only drops blocks. -/
structure Frame (s t : Sys) : Prop where
  cores : t.cores = s.cores
  domains : t.domains = s.domains
  attachMu : t.attachMu = s.attachMu
  hooks : t.hooks = s.hooks
  memory : t.memory = s.memory
  instances : t.instances = s.instances
  calls : t.calls = s.calls

variable {s t : Sys} {b : Block} {bs : List Block} {c : Pinned} {k : Nat} {l : CoreLocks}

/-- The books do not depend on the order of the blocks and calls. -/
theorem Booked.perm (h : Booked s) (hcalls : s.calls.Perm t.calls) (hblocks : s.blocks.Perm t.blocks)
    (hlocks : t.locks = s.locks) (hbytes : t.lockedBytes = s.lockedBytes)
    (hregistered : t.registered = s.registered) (hun : t.unregistered = s.unregistered) :
    Booked t where
  busy := (((hcalls.filter _).map _).symm.trans h.busy).trans ((hblocks.filter _).map _)
  bytes c l hl := by
    rw [hlocks] at hl
    rw [← Ledger.total_perm hblocks]
    exact h.bytes c l hl
  locked := by
    rw [hbytes, ← Ledger.total_perm hblocks]
    exact h.locked
  registry := by
    rw [hregistered, hun]
    exact h.registry.trans (.append_left _ (.append (hblocks.filterMap _) (hcalls.filterMap _)))
  serial := hregistered ▸ h.serial
  nodup := hregistered ▸ h.nodup

theorem locksOf_eq {core : Nat} (h : s.locks core = some l) : s.locksOf core = l := by
  rw [locksOf, h, Option.getD_some]

/-! ## Dropping blocks -/

theorem frame_dropBlock : Frame s (s.dropBlock b) ∧
    (s.dropBlock b).registered = s.registered := by
  unfold dropBlock unlockBlock
  split <;> exact ⟨⟨rfl, rfl, rfl, rfl, rfl, rfl, rfl⟩, rfl⟩

theorem dropBlock_blocks : (s.dropBlock b).blocks = others Block.key b.key s.blocks := by
  unfold dropBlock unlockBlock
  split
  · rfl
  · exact others_put

theorem dropBlock_locks (hl : s.locks b.core = some l) {core : Nat} :
    (s.dropBlock b).locks core = none ↔ s.locks core = none := by
  unfold dropBlock unlockBlock
  split
  · rfl
  · simp only [Function.update_apply]
    split
    · rename_i hc
      subst hc
      simp [hl]
    · rfl

theorem dropBlock_of_locked (h : b.state = .locked) (hl : s.locks b.core = some l) :
    s.dropBlock b = { s with
      unregistered := ⟨b.core, b.domain, b.base, b.size, b.handle⟩ :: s.unregistered
      blocks := others Block.key b.key s.blocks
      lockedBytes := s.lockedBytes - b.size
      locks := Function.update s.locks b.core (some { l with bytes := l.bytes - b.size }) } := by
  unfold Sys.dropBlock unlockBlock
  rw [if_neg (not_not.mpr h), locksOf_eq hl]
  have hothers : others Block.key b.key
      (put Block.key { b with state := .seen, handle := 0 } s.blocks) =
      others Block.key b.key s.blocks := others_put
  simp only [hothers]

theorem dropBlock_of_not_locked (h : b.state ≠ .locked) :
    s.dropBlock b = { s with blocks := others Block.key b.key s.blocks } := by
  unfold Sys.dropBlock unlockBlock
  rw [if_pos h]

/-- A block that is not being locked is unlocked, if it is locked, and taken off the books. -/
theorem Booked.dropBlock (h : Booked s) (hkeys : (s.blocks.map Block.key).Nodup) (hb : b ∈ s.blocks)
    (hstate : b.state ≠ .locking) (hl : s.locks b.core = some l) : Booked (s.dropBlock b) := by
  have h : Booked { s with blocks := b :: others Block.key b.key s.blocks } :=
    h.perm (.refl _) (perm_of_mem hkeys hb) rfl rfl rfl rfl
  have hbusy := h.busy
  have hbytes := h.bytes
  have hlocked := h.locked
  have hregistry := h.registry
  unfold openRegistrations at hregistry
  simp only [List.filter_cons, hstate, decide_false, Bool.false_eq_true, if_false] at hbusy
  simp only [Ledger.total_cons] at hbytes hlocked
  by_cases hlock : b.state = .locked
  · rw [dropBlock_of_locked hlock hl]
    simp only [Charged, hlock, or_true, and_true, if_true] at hbytes hlocked
    rw [List.filterMap_cons_some (b := ⟨b.core, b.domain, b.base, b.size, b.handle⟩)
      (by rw [Block.registration, if_pos hlock])] at hregistry
    refine ⟨hbusy, fun core l' hl' => ?_, ?_, ?_, h.serial, h.nodup⟩
    · simp only [Function.update_apply] at hl'
      split at hl'
      · rename_i hc
        subst hc
        cases hl'
        have := hbytes _ _ hl
        rw [if_pos rfl] at this
        simp only
        omega
      · rename_i hc
        have := hbytes _ _ hl'
        rw [if_neg (Ne.symm hc)] at this
        simp only
        omega
    · simp only
      omega
    · unfold openRegistrations
      simp only
      exact hregistry.trans List.perm_middle
  · rw [dropBlock_of_not_locked hlock]
    have hcharged : ∀ core, ¬Charged core b := fun core hc => hc.2.elim hstate hlock
    rw [List.filterMap_cons_none (by rw [Block.registration, if_neg hlock])] at hregistry
    refine ⟨hbusy, fun core l' hl' => ?_, ?_, hregistry, h.serial, h.nodup⟩
    · have := hbytes _ _ hl'
      rw [if_neg (hcharged core)] at this
      simp only
      omega
    · rw [if_neg hlock] at hlocked
      simp only
      omega

/-- Blocks of the table that are not being locked, one after the other. -/
theorem foldl_dropBlock (h : Booked s) (hkeys : (s.blocks.map Block.key).Nodup)
    (hbs : (bs.map Block.key).Nodup)
    (hmem : ∀ b ∈ bs, b ∈ s.blocks ∧ b.state ≠ .locking ∧ ∃ l, s.locks b.core = some l) :
    Booked (bs.foldl Sys.dropBlock s) ∧
      (((bs.foldl Sys.dropBlock s).blocks).map Block.key).Nodup ∧
      (∀ b, b ∈ (bs.foldl Sys.dropBlock s).blocks ↔
        b ∈ s.blocks ∧ b.key ∉ bs.map Block.key) ∧
      (∀ core, (bs.foldl Sys.dropBlock s).locks core = none ↔ s.locks core = none) ∧
      Frame s (bs.foldl Sys.dropBlock s) := by
  induction bs generalizing s with
  | nil => exact ⟨h, hkeys, by simp, fun _ => .rfl, rfl, rfl, rfl, rfl, rfl, rfl, rfl⟩
  | cons b bs ih =>
    rw [List.map_cons, List.nodup_cons] at hbs
    obtain ⟨hb, hstate, l, hl⟩ := hmem b List.mem_cons_self
    have hstep := h.dropBlock hkeys hb hstate hl
    have hkeys' : ((s.dropBlock b).blocks.map Block.key).Nodup := by
      rw [dropBlock_blocks]
      exact nodup_others hkeys
    obtain ⟨hbooked, hnodup, hrest, hlocks, hframe⟩ := ih hstep hkeys' hbs.2 fun b' hb' => by
      obtain ⟨hmem', hstate', l', hl'⟩ := hmem b' (List.mem_cons_of_mem _ hb')
      refine ⟨?_, hstate', ?_⟩
      · rw [dropBlock_blocks]
        refine mem_others.mpr ⟨hmem', fun heq => hbs.1 ?_⟩
        rw [← heq]
        exact List.mem_map_of_mem hb'
      · rw [← Option.ne_none_iff_exists', ne_eq, dropBlock_locks hl, hl']
        nofun
    have hfirst := (frame_dropBlock (s := s) (b := b)).1
    rw [List.foldl_cons]
    refine ⟨hbooked, hnodup, fun b' => ?_, fun core => (hlocks core).trans (dropBlock_locks hl), ?_⟩
    · rw [hrest, dropBlock_blocks, mem_others, List.map_cons, List.mem_cons, not_or, and_assoc]
    · exact ⟨hframe.cores.trans hfirst.cores, hframe.domains.trans hfirst.domains,
        hframe.attachMu.trans hfirst.attachMu, hframe.hooks.trans hfirst.hooks,
        hframe.memory.trans hfirst.memory, hframe.instances.trans hfirst.instances,
        hframe.calls.trans hfirst.calls⟩

/-- The blocks of a kind, none of which is being locked. -/
theorem dropBlocks_spec {p : Block → Bool} (h : Booked s) (hkeys : (s.blocks.map Block.key).Nodup)
    (hmem : ∀ b ∈ s.blocks, p b = true → b.state ≠ .locking ∧ ∃ l, s.locks b.core = some l) :
    Booked (s.dropBlocks p) ∧ ((s.dropBlocks p).blocks.map Block.key).Nodup ∧
      (∀ b, b ∈ (s.dropBlocks p).blocks ↔ b ∈ s.blocks ∧ p b = false) ∧
      (∀ core, (s.dropBlocks p).locks core = none ↔ s.locks core = none) ∧
      Frame s (s.dropBlocks p) := by
  have hsub : (s.blocks.filter p).Sublist s.blocks := List.filter_sublist
  obtain ⟨hbooked, hnodup, hrest, hlocks, hframe⟩ :=
    foldl_dropBlock h hkeys (hkeys.sublist (hsub.map _)) fun b hb => by
      obtain ⟨hb, hp⟩ := List.mem_filter.mp hb
      exact ⟨hb, hmem b hb hp⟩
  refine ⟨hbooked, hnodup, fun b => (hrest b).trans (and_congr_right fun hb => ?_), hlocks, hframe⟩
  constructor
  · intro hkey
    rw [Bool.eq_false_iff]
    exact fun hp => hkey (List.mem_map_of_mem (List.mem_filter.mpr ⟨hb, hp⟩))
  · intro hp hkey
    obtain ⟨b', hb', heq⟩ := List.mem_map.mp hkey
    obtain ⟨hmem', hp'⟩ := List.mem_filter.mp hb'
    rw [List.inj_on_of_nodup_map hkeys hmem' hb heq, hp] at hp'
    cases hp'

/-! ## Instances -/

structure Sound (s : Sys) : Prop where
  attached : Attached s
  placed : Placed s
  booked : Booked s

variable {i core domain cap base size : Nat} {m : Instance} {hooked : Bool}

/-- A core has at least the instances of one of its domains. -/
theorem Attached.domains_le (h : Attached s) : s.domains (core, domain) ≤ s.cores core := by
  rw [h.domains_eq, h.cores_eq]
  refine List.countP_mono_left fun m _ hm => ?_
  simp only [Bool.and_eq_true] at hm ⊢
  exact ⟨hm.1, hm.2.1⟩

theorem Attached.domains_pos (h : Attached s) (hm : s.instances[i]? = some m)
    (hattached : m.attached = true) : 0 < s.domains (m.core, m.domain) := by
  rw [h.domains_eq]
  exact List.countP_pos_iff.mpr ⟨m, List.mem_of_getElem? hm, by simp [hattached]⟩

theorem Sound.block_core (h : Sound s) (hb : b ∈ s.blocks) : 0 < s.cores b.core :=
  Nat.lt_of_lt_of_le (h.placed.block_attached b hb) h.attached.domains_le

theorem Sound.block_locks (h : Sound s) (hb : b ∈ s.blocks) : ∃ l, s.locks b.core = some l :=
  h.attached.locks _ (h.block_core hb)

theorem Sound.call_domains (h : Sound s) (hc : c ∈ s.calls) (hlive : c.phase ≠ .ended) :
    0 < s.domains (c.core, c.domain) := by
  obtain ⟨m, hm, hattached, hcore, hdomain⟩ := h.placed.call_attached c hc hlive
  rw [← hcore, ← hdomain]
  exact h.attached.domains_pos hm hattached

/-- The block of a call is of the core and size of the call's frame. -/
theorem Sound.block_of_call (h : Sound s) (hc : c ∈ s.calls) (hlive : c.phase ≠ .ended)
    (hb : b ∈ s.blocks) (hkey : b.key = c.key) :
    b.base = c.base ∧ b.domain = c.domain ∧ b.core = c.core ∧ b.size = c.size := by
  obtain ⟨hbase, hdomain⟩ := Prod.mk.inj hkey
  have hlive := h.placed.call_live c hc hlive
  have hmemory := h.placed.block_live b hb
  rw [hbase, hlive] at hmemory
  obtain ⟨hcore, hsize⟩ := Prod.mk.inj (Option.some.inj hmemory)
  exact ⟨hbase, hdomain, hcore.symm, hsize.symm⟩

/-- A call that is locking its block finds it so. -/
theorem Booked.block_of_busy (h : Booked s) (hc : c ∈ s.calls) (hbusy : c.busy = true) :
    ∃ b ∈ s.blocks, b.key = c.key ∧ b.state = .locking := by
  have hmem : c.key ∈ (s.calls.filter Pinned.busy).map Pinned.key :=
    List.mem_map_of_mem (List.mem_filter.mpr ⟨hc, hbusy⟩)
  obtain ⟨b, hb, hkey⟩ := List.mem_map.mp (h.busy.mem_iff.mp hmem)
  obtain ⟨hb, hstate⟩ := List.mem_filter.mp hb
  exact ⟨b, hb, hkey, of_decide_eq_true hstate⟩

/-- A block that is being locked has a call that does so. -/
theorem Booked.call_of_locking (h : Booked s) (hb : b ∈ s.blocks) (hstate : b.state = .locking) :
    ∃ c ∈ s.calls, c.key = b.key ∧ c.busy = true := by
  have hmem : b.key ∈ (s.blocks.filter (·.state = .locking)).map Block.key :=
    List.mem_map_of_mem (List.mem_filter.mpr ⟨hb, decide_eq_true hstate⟩)
  obtain ⟨c, hc, hkey⟩ := List.mem_map.mp (h.busy.mem_iff.mpr hmem)
  obtain ⟨hc, hbusy⟩ := List.mem_filter.mp hc
  exact ⟨c, hc, hkey, hbusy⟩

theorem not_ended_of_busy (h : c.busy = true) : c.phase ≠ .ended := by
  intro hended
  rw [Pinned.busy, hended] at h
  cases h

theorem Sound.attach (h : Sound s) (hmu : s.attachMu = none) :
    Sound (s.attach core domain hooked cap) := by
  unfold Sys.attach
  by_cases hfail : s.cores core = 0 ∧ (!hooked) = true
  · rw [if_pos hfail]
    exact h
  rw [if_neg hfail]
  generalize hs : (if s.cores core = 0 then { s with
      hooks := Function.update s.hooks core true
      locks := Function.update s.locks core (some ⟨cap, 0⟩) } else s) = t
  -- the hook and the locks of the core are there, and no block is under it yet
  have ht : Booked t ∧ t.cores = s.cores ∧ t.domains = s.domains ∧ t.blocks = s.blocks ∧
      t.memory = s.memory ∧ t.calls = s.calls ∧ t.instances = s.instances ∧
      t.attachMu = s.attachMu ∧ t.hooks core = true ∧ (∃ l, t.locks core = some l) ∧
      ∀ c, c ≠ core → t.hooks c = s.hooks c ∧ t.locks c = s.locks c := by
    subst hs
    by_cases hfirst : s.cores core = 0
    · rw [if_pos hfirst]
      refine ⟨⟨h.booked.busy, fun c l hl => ?_, h.booked.locked, h.booked.registry,
        h.booked.serial, h.booked.nodup⟩, rfl, rfl, rfl, rfl, rfl, rfl, rfl,
        Function.update_self .., ⟨_, Function.update_self ..⟩,
        fun c hc => ⟨Function.update_of_ne hc .., Function.update_of_ne hc ..⟩⟩
      simp only [Function.update_apply] at hl
      split at hl
      · rename_i hc
        cases hl
        subst hc
        have hnone : Ledger.total Block.size (Charged c) s.blocks = 0 :=
          Ledger.total_eq_zero fun b hb hcharged => by
            have := h.block_core hb
            rw [hcharged.1, hfirst] at this
            exact Nat.lt_irrefl 0 this
        exact ⟨hnone.symm, Nat.zero_le _⟩
      · exact h.booked.bytes c l hl
    · rw [if_neg hfirst]
      have hpos := Nat.pos_of_ne_zero hfirst
      exact ⟨h.booked, rfl, rfl, rfl, rfl, rfl, rfl, rfl, h.attached.hook _ hpos,
        h.attached.locks _ hpos, fun c _ => ⟨rfl, rfl⟩⟩
  obtain ⟨hbooked, hcores, hdomains, hblocks, hmemory, hcalls, hinstances, hmu', hhook, hlocks,
    hother⟩ := ht
  refine ⟨⟨fun c => ?_, fun c d => ?_, fun c hc => ?_, fun c hc => ?_, fun c r hr => ?_⟩,
    ⟨?_, ?_, ?_, ?_, ?_⟩, hbooked.perm (.refl _) (.refl _) rfl rfl rfl rfl⟩
  · have hold := h.attached.cores_eq c
    simp only [hcores, hinstances, Function.update_apply, List.countP_append, List.countP_singleton]
    by_cases hc : c = core
    · subst hc
      simp [hold]
    · simp [hc, Ne.symm hc, hold]
  · have hold := h.attached.domains_eq c d
    simp only [hdomains, hinstances, Function.update_apply, List.countP_append,
      List.countP_singleton]
    by_cases hc : (c, d) = (core, domain)
    · cases hc
      simp [hold]
    · have hne : ¬(core = c ∧ domain = d) := fun heq => hc (by rw [heq.1, heq.2])
      simp [hc, hne, hold]
  · by_cases heq : c = core
    · exact heq ▸ hhook
    · rw [show ({ t with cores := _, domains := _, instances := _ } : Sys).hooks c = t.hooks c from
        rfl, (hother c heq).1]
      simp only [hcores, Function.update_of_ne heq] at hc
      exact h.attached.hook c hc
  · by_cases heq : c = core
    · exact heq ▸ hlocks
    · simp only [hcores, Function.update_of_ne heq] at hc
      obtain ⟨l, hl⟩ := h.attached.locks c hc
      exact ⟨l, (hother c heq).2.trans hl⟩
  · simp only [hmu', hmu] at hr
    cases hr
  · simp only [hblocks]
    exact h.placed.keys
  · simp only [hblocks, hmemory]
    exact h.placed.block_live
  · simp only [hblocks, hdomains, Function.update_apply]
    intro b hb
    have := h.placed.block_attached b hb
    split
    · exact Nat.succ_pos _
    · exact this
  · simp only [hcalls, hmemory]
    exact h.placed.call_live
  · simp only [hcalls, hinstances]
    intro c hc hlive
    obtain ⟨m, hm, hattached⟩ := h.placed.call_attached c hc hlive
    exact ⟨m, Calls.getElem?_snoc_iff.mpr (.inl hm), hattached⟩

/-- What the counts and tables become when instance `i` goes, before any block is dropped. -/
theorem Attached.counts_detach (h : Attached s) (hm : s.instances[i]? = some m)
    (hattached : m.attached = true) :
    (∀ c, Function.update s.cores m.core (s.cores m.core - 1) c =
      (s.instances.set i { m with attached := false }).countP
        fun m => m.attached && m.core == c) ∧
    ∀ c d, Function.update s.domains (m.core, m.domain) (s.domains (m.core, m.domain) - 1) (c, d) =
      (s.instances.set i { m with attached := false }).countP
        fun m => m.attached && (m.core == c && m.domain == d) := by
  constructor
  · intro c
    have hset := Calls.countP_set (y := { m with attached := false })
      (p := fun m => m.attached && m.core == c) hm
    rw [← h.cores_eq c] at hset
    rw [Function.update_apply]
    by_cases hc : c = m.core
    · subst hc
      simp [hattached] at hset
      rw [if_pos rfl]
      omega
    · simp [Ne.symm hc] at hset
      rw [if_neg hc, hset]
  · intro c d
    have hset := Calls.countP_set (y := { m with attached := false })
      (p := fun m => m.attached && (m.core == c && m.domain == d)) hm
    rw [← h.domains_eq c d] at hset
    rw [Function.update_apply]
    by_cases hc : (c, d) = (m.core, m.domain)
    · cases hc
      simp [hattached] at hset
      rw [if_pos rfl]
      omega
    · have hne : ¬(m.core = c ∧ m.domain = d) := fun heq => hc (by rw [heq.1, heq.2])
      simp [hne] at hset
      rw [if_neg hc, hset]

theorem Sound.detach (h : Sound s) (hmu : s.attachMu = none) (hm : s.instances[i]? = some m)
    (hattached : m.attached = true) (hcalls : ∀ c ∈ s.calls, c.self = i → c.phase = .ended) :
    Sound (s.detach i m) := by
  obtain ⟨hcores, hdomains⟩ := h.attached.counts_detach hm hattached
  -- no call in flight is of this instance
  have hothers : ∀ c ∈ s.calls, c.phase ≠ .ended →
      ∃ m', (s.instances.set i { m with attached := false })[c.self]? = some m' ∧
        m'.attached = true ∧ m'.core = c.core ∧ m'.domain = c.domain := by
    intro c hc hlive
    obtain ⟨m', hm', hrest⟩ := h.placed.call_attached c hc hlive
    have hne : c.self ≠ i := fun heq => hlive (hcalls c hc heq)
    exact ⟨m', (Calls.getElem?_set_iff hm).mpr (.inr ⟨hne, hm'⟩), hrest⟩
  unfold Sys.detach
  simp only
  generalize hs : (if Function.update s.domains (m.core, m.domain)
      (s.domains (m.core, m.domain) - 1) (m.core, m.domain) = 0 then
    Sys.dropBlocks _ _ else _) = t
  set s₁ : Sys := { s with
    instances := s.instances.set i { m with attached := false }
    domains := Function.update s.domains (m.core, m.domain)
      (s.domains (m.core, m.domain) - 1) } with hs₁
  have hbooked₁ : Booked s₁ := h.booked.perm (.refl _) (.refl _) rfl rfl rfl rfl
  -- the blocks that are left are of domains that have an instance
  have ht : Booked t ∧ (t.blocks.map Block.key).Nodup ∧
      (∀ b ∈ t.blocks, b ∈ s.blocks ∧ 0 < s₁.domains (b.core, b.domain)) ∧
      (∀ c, t.locks c = none ↔ s.locks c = none) ∧ Frame s₁ t := by
    have hkeep : ∀ b ∈ s.blocks, (b.core, b.domain) ≠ (m.core, m.domain) →
        0 < s₁.domains (b.core, b.domain) := by
      intro b hb hne
      rw [hs₁]
      simp only [Function.update_of_ne hne]
      exact h.placed.block_attached b hb
    subst hs
    split
    · rename_i hlast
      rw [Function.update_self] at hlast
      obtain ⟨hbooked, hnodup, hmem, hlocks, hframe⟩ :=
        dropBlocks_spec (p := fun b => b.core == m.core && b.domain == m.domain) hbooked₁
          h.placed.keys fun b hb hp => by
            refine ⟨fun hlocking => ?_, h.block_locks hb⟩
            -- the call that is locking the block would be of another instance
            obtain ⟨c, hc, hkey, hbusy⟩ := h.booked.call_of_locking hb hlocking
            have hlive := not_ended_of_busy hbusy
            obtain ⟨-, hdomain, hcore, -⟩ := h.block_of_call hc hlive hb hkey.symm
            simp only [Bool.and_eq_true, beq_iff_eq] at hp
            obtain ⟨m', hm', hattached', hcore', hdomain'⟩ := hothers c hc hlive
            have hpos : 0 < (s.instances.set i { m with attached := false }).countP
                fun m' => m'.attached && (m'.core == m.core && m'.domain == m.domain) :=
              List.countP_pos_iff.mpr ⟨m', List.mem_of_getElem? hm', by
                simp [hattached', hcore', hdomain', ← hcore, ← hdomain, hp.1, hp.2]⟩
            rw [← hdomains, Function.update_self, hlast] at hpos
            exact Nat.lt_irrefl 0 hpos
      refine ⟨hbooked, hnodup, fun b hb => ?_, hlocks, hframe⟩
      obtain ⟨hb, hp⟩ := (hmem b).mp hb
      refine ⟨hb, hkeep b hb fun heq => ?_⟩
      obtain ⟨hc, hd⟩ := Prod.mk.inj heq
      simp [hc, hd] at hp
    · rename_i hmore
      refine ⟨hbooked₁, h.placed.keys, fun b hb => ⟨hb, ?_⟩, fun _ => .rfl,
        rfl, rfl, rfl, rfl, rfl, rfl, rfl⟩
      by_cases heq : (b.core, b.domain) = (m.core, m.domain)
      · rw [heq]
        exact Nat.pos_of_ne_zero hmore
      · exact hkeep b hb heq
  obtain ⟨hbooked, hkeys, hblocks, hlocks, hframe⟩ := ht
  have hcores' : Function.update t.cores m.core (t.cores m.core - 1) =
      Function.update s.cores m.core (s.cores m.core - 1) := by rw [hframe.cores]
  have hle : ∀ c, Function.update s.cores m.core (s.cores m.core - 1) c ≤ s.cores c := by
    intro c
    rw [Function.update_apply]
    split
    · rename_i hc
      subst hc
      exact Nat.sub_le _ _
    · exact Nat.le_refl _
  -- with either value of `attach_mu`
  have hsound : ∀ mu : Option (Nat × Removal),
      (∀ c r, mu = some (c, r) → Function.update s.cores m.core (s.cores m.core - 1) c = 0) →
      Sound { t with
        cores := Function.update t.cores m.core (t.cores m.core - 1)
        attachMu := mu } := by
    intro mu hidle
    refine ⟨⟨?_, ?_, fun c hc => ?_, fun c hc => ?_, ?_⟩, ⟨hkeys, ?_, ?_, ?_, ?_⟩,
      hbooked.perm (.refl _) (.refl _) rfl rfl rfl rfl⟩
    · simp only [hcores', hframe.instances]
      exact hcores
    · simp only [hframe.domains, hframe.instances]
      exact hdomains
    · simp only [hcores'] at hc
      simp only [hframe.hooks]
      exact h.attached.hook c (Nat.lt_of_lt_of_le hc (hle c))
    · simp only [hcores'] at hc
      obtain ⟨l, hl⟩ := h.attached.locks c (Nat.lt_of_lt_of_le hc (hle c))
      rw [← Option.ne_none_iff_exists', ne_eq, hlocks, hl]
      nofun
    · simp only [hcores']
      exact hidle
    · simp only [hframe.memory]
      exact fun b hb => h.placed.block_live b (hblocks b hb).1
    · simp only [hframe.domains]
      exact fun b hb => (hblocks b hb).2
    · simp only [hframe.calls, hframe.memory]
      exact h.placed.call_live
    · simp only [hframe.calls, hframe.instances]
      exact hothers
  by_cases hlast : 0 < Function.update t.cores m.core (t.cores m.core - 1) m.core
  · rw [if_pos hlast]
    refine hsound t.attachMu fun c r hr => ?_
    rw [hframe.attachMu, show s₁.attachMu = none from hmu] at hr
    cases hr
  · rw [if_neg hlast]
    refine hsound _ fun c r hr => ?_
    cases hr
    rw [← hcores']
    exact Nat.eq_zero_of_not_pos hlast

theorem Sound.eraseLocks (h : Sound s) (hmu : s.attachMu = some (core, .locks)) :
    Sound { s with
      locks := Function.update s.locks core none
      attachMu := some (core, .hook) } := by
  have hidle := h.attached.idle _ _ hmu
  refine ⟨⟨h.attached.cores_eq, h.attached.domains_eq, h.attached.hook, fun c hc => ?_,
    fun c r hr => ?_⟩, ⟨h.placed.keys, h.placed.block_live, h.placed.block_attached,
      h.placed.call_live, h.placed.call_attached⟩,
    ⟨h.booked.busy, fun c l hl => ?_, h.booked.locked, h.booked.registry, h.booked.serial,
      h.booked.nodup⟩⟩
  · have hne : c ≠ core := by
      rintro rfl
      exact Nat.lt_irrefl 0 (hidle ▸ hc)
    simp only [Function.update_of_ne hne]
    exact h.attached.locks c hc
  · cases hr
    exact hidle
  · simp only [Function.update_apply] at hl
    split at hl
    · cases hl
    · exact h.booked.bytes c l hl

theorem Sound.removeHook (h : Sound s) (hmu : s.attachMu = some (core, .hook)) :
    Sound { s with hooks := Function.update s.hooks core false, attachMu := none } := by
  have hidle := h.attached.idle _ _ hmu
  refine ⟨⟨h.attached.cores_eq, h.attached.domains_eq, fun c hc => ?_, h.attached.locks,
    fun c r hr => ?_⟩, ⟨h.placed.keys, h.placed.block_live, h.placed.block_attached,
      h.placed.call_live, h.placed.call_attached⟩,
    h.booked.perm (.refl _) (.refl _) rfl rfl rfl rfl⟩
  · have hne : c ≠ core := by
      rintro rfl
      exact Nat.lt_irrefl 0 (hidle ▸ hc)
    simp only [Function.update_of_ne hne]
    exact h.attached.hook c hc
  · cases hr

/-! ## Memory -/

theorem Sound.alloc (h : Sound s) (hfree : s.memory base = none) :
    Sound { s with memory := Function.update s.memory base (some (core, size)) } := by
  have hkeep : ∀ {b' x}, s.memory b' = some x →
      Function.update s.memory base (some (core, size)) b' = some x := by
    intro b' x hx
    have hne : b' ≠ base := by
      rintro rfl
      rw [hfree] at hx
      cases hx
    rw [Function.update_of_ne hne, hx]
  exact ⟨⟨h.attached.cores_eq, h.attached.domains_eq, h.attached.hook, h.attached.locks,
    h.attached.idle⟩, ⟨h.placed.keys, fun b hb => hkeep (h.placed.block_live b hb),
      h.placed.block_attached, fun c hc hlive => hkeep (h.placed.call_live c hc hlive),
      h.placed.call_attached⟩, h.booked.perm (.refl _) (.refl _) rfl rfl rfl rfl⟩

/-- The pool frees a block: before that, no entry of it is left. -/
theorem Sound.release (h : Sound s) (hbase : s.memory base = some (core, size))
    (hcalls : ∀ c ∈ s.calls, c.base = base → c.phase = .ended) :
    Sound (s.release base core) := by
  unfold Sys.release
  simp only
  generalize hs : (if s.hooks core = true then s.onRelease base else s) = t
  have ht : Booked t ∧ (t.blocks.map Block.key).Nodup ∧
      (∀ b ∈ t.blocks, b ∈ s.blocks ∧ b.base ≠ base) ∧
      (∀ c, t.locks c = none ↔ s.locks c = none) ∧ Frame s t := by
    subst hs
    split
    · obtain ⟨hbooked, hnodup, hmem, hlocks, hframe⟩ :=
        dropBlocks_spec (p := fun b => b.base == base) h.booked h.placed.keys fun b hb hp => by
          refine ⟨fun hlocking => ?_, h.block_locks hb⟩
          -- the call that is locking the block holds a frame of it
          obtain ⟨c, hc, hkey, hbusy⟩ := h.booked.call_of_locking hb hlocking
          have hlive := not_ended_of_busy hbusy
          obtain ⟨hbase', -⟩ := h.block_of_call hc hlive hb hkey.symm
          exact hlive (hcalls c hc (hbase'.symm.trans (beq_iff_eq.mp hp)))
      refine ⟨hbooked, hnodup, fun b hb => ?_, hlocks, hframe⟩
      obtain ⟨hb, hp⟩ := (hmem b).mp hb
      exact ⟨hb, by simpa using hp⟩
    · rename_i hno
      refine ⟨h.booked, h.placed.keys, fun b hb => ⟨hb, fun heq => ?_⟩, fun _ => .rfl,
        rfl, rfl, rfl, rfl, rfl, rfl, rfl⟩
      -- where there is no hook there is no entry
      have hlive := h.placed.block_live b hb
      rw [heq, hbase] at hlive
      have hcore : core = b.core := (Prod.mk.inj (Option.some.inj hlive)).1
      exact hno (hcore ▸ h.attached.hook _ (h.block_core hb))
  obtain ⟨hbooked, hkeys, hblocks, hlocks, hframe⟩ := ht
  refine ⟨⟨?_, ?_, ?_, fun c hc => ?_, ?_⟩, ⟨hkeys, fun b hb => ?_, ?_, fun c hc hlive => ?_, ?_⟩,
    hbooked.perm (.refl _) (.refl _) rfl rfl rfl rfl⟩
  · simp only [hframe.cores, hframe.instances]
    exact h.attached.cores_eq
  · simp only [hframe.domains, hframe.instances]
    exact h.attached.domains_eq
  · simp only [hframe.cores, hframe.hooks]
    exact h.attached.hook
  · simp only [hframe.cores] at hc
    obtain ⟨l, hl⟩ := h.attached.locks c hc
    rw [← Option.ne_none_iff_exists', ne_eq, hlocks, hl]
    nofun
  · simp only [hframe.attachMu, hframe.cores]
    exact h.attached.idle
  · simp only [hframe.memory, Function.update_of_ne (hblocks b hb).2]
    exact h.placed.block_live b (hblocks b hb).1
  · simp only [hframe.domains]
    exact fun b hb => h.placed.block_attached b (hblocks b hb).1
  · simp only [hframe.calls] at hc
    simp only [hframe.memory, Function.update_of_ne fun heq => hlive (hcalls c hc heq)]
    exact h.placed.call_live c hc hlive
  · simp only [hframe.calls, hframe.instances]
    exact h.placed.call_attached

/-! ## Calls -/

section Calls

variable {y : Pinned} {data : Option Nat} {phase : Phase} {handle : Nat}

theorem Placed.put (h : Placed s) (hlive : s.memory b.base = some (b.core, b.size))
    (hattached : 0 < s.domains (b.core, b.domain)) :
    Placed { s with blocks := put Block.key b s.blocks } where
  keys := nodup_put h.keys
  block_live b' hb' := by
    rcases mem_put.mp hb' with rfl | hb'
    · exact hlive
    · exact h.block_live b' hb'.1
  block_attached b' hb' := by
    rcases mem_put.mp hb' with rfl | hb'
    · exact hattached
    · exact h.block_attached b' hb'.1
  call_live := h.call_live
  call_attached := h.call_attached

/-- A call goes on. -/
theorem Placed.setPhase (h : Placed s) (hk : s.calls[k]? = some c) (hlive : c.phase ≠ .ended) :
    Placed (s.setPhase k c phase) where
  keys := h.keys
  block_live := h.block_live
  block_attached := h.block_attached
  call_live := Calls.forall_set (fun _ => h.call_live c (List.mem_of_getElem? hk) hlive) h.call_live
  call_attached := Calls.forall_set
    (fun _ => h.call_attached c (List.mem_of_getElem? hk) hlive) h.call_attached

/-- A call goes on that neither locks nor registers. -/
theorem Booked.setPhase (h : Booked s) (hk : s.calls[k]? = some c)
    (hbusy : ({ c with phase := phase } : Pinned).busy = c.busy)
    (hregistration : ({ c with phase := phase } : Pinned).registration = c.registration) :
    Booked (s.setPhase k c phase) := by
  obtain ⟨rest, hrest, hset⟩ := Calls.set_perm hk
  have h : Booked { s with calls := c :: rest } := h.perm hrest (.refl _) rfl rfl rfl rfl
  have hstep : Booked { s with calls := { c with phase := phase } :: rest } := by
    refine ⟨?_, h.bytes, h.locked, ?_, h.serial, h.nodup⟩
    · have hold := h.busy
      simp only [List.filter_cons] at hold ⊢
      rw [hbusy]
      cases hc : c.busy with
      | false => simpa only [hc, Bool.false_eq_true, if_false] using hold
      | true =>
        simp only [hc, if_true, List.map_cons] at hold ⊢
        exact hold
    · have hold := h.registry
      unfold openRegistrations at hold ⊢
      simp only [List.filterMap_cons] at hold ⊢
      rw [hregistration]
      exact hold
  exact hstep.perm (hset _).symm (.refl _) rfl rfl rfl rfl

theorem Attached.of_eq (h : Attached s) (hcores : t.cores = s.cores) (hdomains : t.domains = s.domains)
    (hhooks : t.hooks = s.hooks) (hmu : t.attachMu = s.attachMu)
    (hinstances : t.instances = s.instances)
    (hlocks : ∀ c l, s.locks c = some l → ∃ l', t.locks c = some l') : Attached t where
  cores_eq := by
    rw [hcores, hinstances]
    exact h.cores_eq
  domains_eq := by
    rw [hdomains, hinstances]
    exact h.domains_eq
  hook := by
    rw [hcores, hhooks]
    exact h.hook
  locks c hc := by
    rw [hcores] at hc
    obtain ⟨l, hl⟩ := h.locks c hc
    exact hlocks c l hl
  idle := by
    rw [hmu, hcores]
    exact h.idle

theorem Sound.setPhase (h : Sound s) (hk : s.calls[k]? = some c) (hlive : c.phase ≠ .ended)
    (hbusy : ({ c with phase := phase } : Pinned).busy = c.busy)
    (hregistration : ({ c with phase := phase } : Pinned).registration = c.registration) :
    Sound (s.setPhase k c phase) :=
  ⟨h.attached.of_eq rfl rfl rfl rfl rfl fun _ l hl => ⟨l, hl⟩, h.placed.setPhase hk hlive,
    h.booked.setPhase hk hbusy hregistration⟩

theorem Sound.enter (h : Sound s) (hm : s.instances[i]? = some m) (hattached : m.attached = true)
    (hbase : s.memory base = some (m.core, size)) :
    Sound { s with calls := s.calls ++ [FrameMemory.enter i m base size data] } := by
  have hcall : (FrameMemory.enter i m base size data).self = i ∧ (FrameMemory.enter i m base size data).core = m.core ∧
      (FrameMemory.enter i m base size data).domain = m.domain ∧ (FrameMemory.enter i m base size data).base = base ∧
      (FrameMemory.enter i m base size data).size = size ∧ (FrameMemory.enter i m base size data).busy = false ∧
      (FrameMemory.enter i m base size data).registration = none := by
    unfold FrameMemory.enter
    split <;> exact ⟨rfl, rfl, rfl, rfl, rfl, rfl, rfl⟩
  obtain ⟨hself, hcore, hdomain, hb, hsize, hbusy, hregistration⟩ := hcall
  refine ⟨h.attached.of_eq rfl rfl rfl rfl rfl fun _ l hl => ⟨l, hl⟩,
    ⟨h.placed.keys, h.placed.block_live, h.placed.block_attached, fun c hc hlive => ?_,
      fun c hc hlive => ?_⟩,
    ⟨?_, h.booked.bytes, h.booked.locked, ?_, h.booked.serial, h.booked.nodup⟩⟩
  · rcases List.mem_append.mp hc with hc | hc
    · exact h.placed.call_live c hc hlive
    · rw [List.mem_singleton.mp hc, hb, hcore, hsize]
      exact hbase
  · rcases List.mem_append.mp hc with hc | hc
    · exact h.placed.call_attached c hc hlive
    · rw [List.mem_singleton.mp hc, hself, hcore, hdomain]
      exact ⟨m, hm, hattached, rfl, rfl⟩
  · simp only [List.filter_append, List.filter_cons, hbusy, Bool.false_eq_true, if_false,
      List.filter_nil, List.append_nil]
    exact h.booked.busy
  · unfold openRegistrations
    simp only [List.filterMap_append, List.filterMap_cons, hregistration, List.filterMap_nil,
      List.append_nil]
    exact h.booked.registry

/-- What a call finds under its key. -/
theorem Sound.found (h : Sound s) (hc : c ∈ s.calls) (hlive : c.phase ≠ .ended)
    (hfind : find Block.key (c.base, c.domain) s.blocks = some b) :
    b ∈ s.blocks ∧ b.base = c.base ∧ b.domain = c.domain ∧ b.core = c.core ∧ b.size = c.size := by
  obtain ⟨hb, hkey⟩ := find_some hfind
  exact ⟨hb, h.block_of_call hc hlive hb hkey⟩

theorem Sound.lookup (h : Sound s) (hk : s.calls[k]? = some c) (hphase : c.phase = .lookup) :
    Sound (s.lookup k c) := by
  have hmem := List.mem_of_getElem? hk
  have hlive : c.phase ≠ .ended := by
    rw [hphase]
    nofun
  have hbusy : c.busy = false := by rw [Pinned.busy, hphase]
  have hregistration : c.registration = none := by rw [Pinned.registration, hphase]
  have hdomain := h.call_domains hmem hlive
  obtain ⟨l, hl⟩ := h.attached.locks c.core (Nat.lt_of_lt_of_le hdomain h.attached.domains_le)
  unfold Sys.lookup
  cases hfind : find Block.key (c.base, c.domain) s.blocks with
  | none =>
    -- the first use of the block
    simp only
    have habsent : ∀ b ∈ s.blocks, b.key ≠ (c.base, c.domain) := fun b hb => find_none hfind hb
    have hput : put Block.key ⟨c.base, c.domain, c.size, c.core, .seen, 0⟩ s.blocks =
        ⟨c.base, c.domain, c.size, c.core, .seen, 0⟩ :: s.blocks := by
      exact congrArg (_ :: ·) (others_of_absent habsent)
    have hseen : Sound { s with
        blocks := put Block.key ⟨c.base, c.domain, c.size, c.core, .seen, 0⟩ s.blocks } := by
      refine ⟨h.attached.of_eq rfl rfl rfl rfl rfl fun _ l hl => ⟨l, hl⟩,
        h.placed.put (h.placed.call_live c hmem hlive) hdomain, ?_⟩
      rw [hput]
      refine ⟨h.booked.busy, fun core l' hl' => ?_, ?_, h.booked.registry, h.booked.serial,
        h.booked.nodup⟩
      · have := h.booked.bytes core l' hl'
        rw [Ledger.total_cons, if_neg (by simp), Nat.zero_add]
        exact this
      · rw [Ledger.total_cons, if_neg (by simp), Nat.zero_add]
        exact h.booked.locked
    exact hseen.setPhase hk hlive hbusy.symm hregistration.symm
  | some block =>
    simp only
    obtain ⟨hb, hbase, hdom, hcore, hsize⟩ := h.found hmem hlive hfind
    by_cases hother : block.state ≠ .seen ∨ block.size ≠ c.size
    · rw [if_pos hother]
      exact h.setPhase hk hlive hbusy.symm hregistration.symm
    rw [if_neg hother, locksOf_eq hl]
    have hstate : block.state = .seen := not_not.mp fun hne => hother (.inl hne)
    by_cases hcap : l.cap < l.bytes + c.size
    · rw [if_pos hcap, Function.update_eq_self_iff.mpr hl.symm]
      exact h.setPhase hk hlive hbusy.symm hregistration.symm
    rw [if_neg hcap]
    -- the second use: the bytes are reserved
    obtain ⟨rest, hrest, hset⟩ := Calls.set_perm hk
    have hblocks := perm_of_mem h.placed.keys hb
    have hbooked : Booked { s with
        calls := c :: rest
        blocks := block :: others Block.key block.key s.blocks } :=
      h.booked.perm hrest hblocks rfl rfl rfl rfl
    have hstep : Booked { s with
        calls := { c with phase := .locking } :: rest
        blocks := { block with state := .locking } :: others Block.key block.key s.blocks
        locks := Function.update s.locks c.core (some { l with bytes := l.bytes + c.size }) } := by
      have hbusy' := hbooked.busy
      have hbytes := hbooked.bytes
      have hlocked := hbooked.locked
      have hregistry := hbooked.registry
      unfold openRegistrations at hregistry
      simp only [List.filter_cons, hbusy, hstate, Bool.false_eq_true, if_false, reduceCtorEq,
        decide_false] at hbusy'
      simp only [Ledger.total_cons, Charged, hstate, reduceCtorEq, or_self, and_false, if_false,
        Nat.zero_add] at hbytes hlocked
      rw [List.filterMap_cons_none hregistration,
        List.filterMap_cons_none (by rw [Block.registration, if_neg (by simp [hstate])])] at hregistry
      refine ⟨?_, fun core l' hl' => ?_, ?_, ?_, hbooked.serial, hbooked.nodup⟩
      · simp only [List.filter_cons, Pinned.busy, if_true, decide_true, List.map_cons]
        have hkey : ({ block with state := .locking } : Block).key =
            ({ c with phase := .locking } : Pinned).key := Prod.ext hbase hdom
        rw [hkey]
        exact hbusy'.cons _
      · simp only [Ledger.total_cons, Charged, true_or, and_true, Function.update_apply] at hl' ⊢
        split at hl'
        · rename_i hc
          cases hl'
          have := hbytes _ _ hl
          rw [if_pos (hcore.trans hc.symm), hc, hsize]
          simp only
          omega
        · rename_i hc
          have := hbytes _ _ hl'
          rw [if_neg fun heq => hc (heq.symm.trans hcore)]
          omega
      · simp only [Ledger.total_cons, reduceCtorEq, if_false, Nat.zero_add]
        exact hlocked
      · unfold openRegistrations
        rw [List.filterMap_cons_none rfl, List.filterMap_cons_none rfl]
        exact hregistry
    refine ⟨h.attached.of_eq rfl rfl rfl rfl rfl fun core l' hl' => ?_, ?_,
      hstep.perm (hset _).symm (.refl _) rfl rfl rfl rfl⟩
    · simp only [Sys.setPhase, Function.update_apply]
      split
      · exact ⟨_, rfl⟩
      · exact ⟨l', hl'⟩
    · have hput := h.placed.put (b := { block with state := .locking })
        (h.placed.block_live block hb) (h.placed.block_attached block hb)
      have hgo : Placed (Sys.setPhase _ k c .locking) := hput.setPhase hk hlive
      exact ⟨hgo.keys, hgo.block_live, hgo.block_attached, hgo.call_live, hgo.call_attached⟩

theorem Sound.register {ok : Bool} (h : Sound s) (hk : s.calls[k]? = some c)
    (hphase : c.phase = .locking) : Sound (s.register k c ok) := by
  have hlive : c.phase ≠ .ended := by
    rw [hphase]
    nofun
  have hbusy : c.busy = true := by rw [Pinned.busy, hphase]
  have hregistration : c.registration = none := by rw [Pinned.registration, hphase]
  unfold Sys.register
  cases ok with
  | false => exact h.setPhase hk hlive hbusy.symm hregistration.symm
  | true =>
    rw [if_pos rfl]
    obtain ⟨rest, hrest, hset⟩ := Calls.set_perm hk
    have hbooked : Booked { s with calls := c :: rest } :=
      h.booked.perm hrest (.refl _) rfl rfl rfl rfl
    have hbusy' := hbooked.busy
    have hregistry := hbooked.registry
    unfold openRegistrations at hregistry
    simp only [List.filter_cons, hbusy, if_true, List.map_cons] at hbusy'
    rw [List.filterMap_cons_none hregistration] at hregistry
    have hstep : Booked { s with
        calls := { c with phase := .registered (s.registered.length + 1) } :: rest
        registered := ⟨c.core, c.domain, c.base, c.size, s.registered.length + 1⟩ ::
          s.registered } := by
      refine ⟨?_, h.booked.bytes, h.booked.locked, ?_, ?_, ?_⟩
      · simp only [List.filter_cons, Pinned.busy, if_true, List.map_cons]
        exact hbusy'
      · unfold openRegistrations
        rw [List.filterMap_cons_some (b := ⟨c.core, c.domain, c.base, c.size,
          s.registered.length + 1⟩) (by simp [Pinned.registration])]
        rw [← List.append_assoc] at hregistry ⊢
        exact (hregistry.cons _).trans List.perm_middle.symm
      · intro r hr
        rw [List.length_cons]
        rcases List.mem_cons.mp hr with rfl | hr
        · exact Nat.le_refl _
        · exact Nat.le_succ_of_le (h.booked.serial r hr)
      · refine List.nodup_cons.mpr ⟨fun hr => ?_, h.booked.nodup⟩
        -- the handle is new
        exact Nat.not_succ_le_self _ (h.booked.serial _ hr)
    have hplaced : Placed (s.setPhase k c (.registered (s.registered.length + 1))) :=
      h.placed.setPhase hk hlive
    exact ⟨h.attached.of_eq rfl rfl rfl rfl rfl fun _ l hl => ⟨l, hl⟩,
      ⟨hplaced.keys, hplaced.block_live, hplaced.block_attached, hplaced.call_live,
        hplaced.call_attached⟩,
      hstep.perm (hset _).symm (.refl _) rfl rfl rfl rfl⟩

theorem Sound.commit (h : Sound s) (hk : s.calls[k]? = some c)
    (hphase : c.phase = .registered handle) : Sound (s.commit k c handle) := by
  have hmem := List.mem_of_getElem? hk
  have hlive : c.phase ≠ .ended := by
    rw [hphase]
    nofun
  have hbusy : c.busy = true := by rw [Pinned.busy, hphase]
  obtain ⟨b, hb, hkey, hstate⟩ := h.booked.block_of_busy hmem hbusy
  obtain ⟨hbase, hdom, hcore, hsize⟩ := h.block_of_call hmem hlive hb hkey
  have hdomain := h.call_domains hmem hlive
  obtain ⟨l, hl⟩ := h.attached.locks c.core (Nat.lt_of_lt_of_le hdomain h.attached.domains_le)
  have hfind := find_of_mem h.placed.keys hb
  rw [hkey, Pinned.key] at hfind
  obtain ⟨rest, hrest, hset⟩ := Calls.set_perm hk
  have hbooked : Booked { s with
      calls := c :: rest
      blocks := b :: others Block.key b.key s.blocks } :=
    h.booked.perm hrest (perm_of_mem h.placed.keys hb) rfl rfl rfl rfl
  have hbusy' := hbooked.busy
  have hbytes := hbooked.bytes
  have hlocked := hbooked.locked
  have hregistry := hbooked.registry
  unfold openRegistrations at hregistry
  simp only [List.filter_cons, hbusy, hstate, decide_true, if_true, List.map_cons,
    ← hkey] at hbusy'
  have hbusy' := (List.perm_cons _).mp hbusy'
  simp only [Ledger.total_cons, Charged, hstate, true_or, and_true, reduceCtorEq, if_false,
    Nat.zero_add] at hbytes hlocked
  rw [List.filterMap_cons_none (by rw [Block.registration, if_neg (by simp [hstate])])] at hregistry
  have hplaced : ∀ state plane, Placed (Sys.setPhase { s with
      blocks := put Block.key { b with state := state, handle := handle } s.blocks } k c
        (.returned plane)) :=
    fun state _ => (h.placed.put (b := { b with state := state, handle := handle })
      (h.placed.block_live b hb) (h.placed.block_attached b hb)).setPhase hk hlive
  unfold Sys.commit
  rw [hfind, Option.getD_some]
  simp only
  by_cases hhandle : handle ≠ 0
  · have hregistration : c.registration = some ⟨c.core, c.domain, c.base, c.size, handle⟩ := by
      rw [Pinned.registration, hphase]
      exact if_pos hhandle
    rw [List.filterMap_cons_some hregistration] at hregistry
    simp only [if_pos hhandle]
    have hstep : Booked { s with
        calls := { c with phase := .returned (some (handle, c.offset)) } :: rest
        blocks := { b with state := .locked, handle := handle } :: others Block.key b.key s.blocks
        lockedBytes := s.lockedBytes + c.size } := by
      refine ⟨?_, fun core l' hl' => ?_, ?_, ?_, hbooked.serial, hbooked.nodup⟩
      · simp only [List.filter_cons, Pinned.busy, Bool.false_eq_true, if_false, reduceCtorEq,
          decide_false]
        exact hbusy'
      · simp only [Ledger.total_cons, Charged, or_true, and_true]
        exact hbytes _ _ hl'
      · simp only [Ledger.total_cons, if_true]
        omega
      · unfold openRegistrations
        rw [List.filterMap_cons_some (b := ⟨b.core, b.domain, b.base, b.size, handle⟩)
          (by rw [Block.registration, if_pos rfl]), List.filterMap_cons_none rfl, hcore, hdom, hbase,
          hsize]
        exact hregistry.trans (.append_left _ List.perm_middle)
    refine ⟨h.attached.of_eq rfl rfl rfl rfl rfl fun _ l hl => ⟨l, hl⟩, ?_,
      hstep.perm (hset _).symm (.refl _) rfl rfl rfl rfl⟩
    have hgo := hplaced .locked (some (handle, c.offset))
    exact ⟨hgo.keys, hgo.block_live, hgo.block_attached, hgo.call_live, hgo.call_attached⟩
  · have hregistration : c.registration = none := by
      rw [Pinned.registration, hphase]
      exact if_neg hhandle
    rw [List.filterMap_cons_none hregistration] at hregistry
    have hlocksOf : ∀ blocks, ({ s with blocks := blocks } : Sys).locksOf c.core = l :=
      fun _ => locksOf_eq hl
    simp only [if_neg hhandle, hlocksOf]
    have hstep : Booked { s with
        calls := { c with phase := .returned none } :: rest
        blocks := { b with state := .failed, handle := handle } :: others Block.key b.key s.blocks
        locks := Function.update s.locks c.core (some { l with bytes := l.bytes - c.size }) } := by
      refine ⟨?_, fun core l' hl' => ?_, ?_, ?_, hbooked.serial, hbooked.nodup⟩
      · simp only [List.filter_cons, Pinned.busy, Bool.false_eq_true, if_false, reduceCtorEq,
          decide_false]
        exact hbusy'
      · simp only [Ledger.total_cons, Charged, reduceCtorEq, or_self, and_false, if_false,
          Nat.zero_add, Function.update_apply] at hl' ⊢
        split at hl'
        · rename_i hc
          cases hl'
          have := hbytes _ _ hl
          rw [if_pos hcore, hsize] at this
          rw [hc]
          simp only
          omega
        · rename_i hc
          have := hbytes _ _ hl'
          rw [if_neg fun heq => hc (heq.symm.trans hcore), Nat.zero_add] at this
          exact this
      · simp only [Ledger.total_cons, reduceCtorEq, if_false, Nat.zero_add]
        exact hlocked
      · unfold openRegistrations
        rw [List.filterMap_cons_none rfl, List.filterMap_cons_none rfl]
        exact hregistry
    refine ⟨h.attached.of_eq rfl rfl rfl rfl rfl fun core l' hl' => ?_, ?_,
      hstep.perm (hset _).symm (.refl _) rfl rfl rfl rfl⟩
    · simp only [Sys.setPhase, Function.update_apply]
      split
      · exact ⟨_, rfl⟩
      · exact ⟨l', hl'⟩
    · have hgo := hplaced .failed none
      exact ⟨hgo.keys, hgo.block_live, hgo.block_attached, hgo.call_live, hgo.call_attached⟩

/-- A call lets its frame go. -/
theorem Sound.finish {plane : Option (Nat × Nat)} (h : Sound s) (hk : s.calls[k]? = some c)
    (hphase : c.phase = .returned plane) : Sound (s.setPhase k c .ended) := by
  have hbusy : c.busy = false := by rw [Pinned.busy, hphase]
  have hregistration : c.registration = none := by rw [Pinned.registration, hphase]
  have hlive : c.phase ≠ .ended := by
    rw [hphase]
    nofun
  exact h.setPhase hk hlive hbusy.symm hregistration.symm

end Calls

/-! ## Runs -/

theorem Sound.init : Sound Sys.init where
  attached := ⟨fun _ => rfl, fun _ _ => rfl, nofun, nofun, nofun⟩
  placed := ⟨.nil, nofun, nofun, nofun, nofun⟩
  booked := ⟨.nil, nofun, rfl, .nil, nofun, .nil⟩

theorem Sound.step {e : Event} (h : Sound s) (hs : Step s e t) : Sound t := by
  cases hs with
  | attach hmu => exact h.attach hmu
  | detach hmu hm hattached hcalls => exact h.detach hmu hm hattached hcalls
  | eraseLocks hmu => exact h.eraseLocks hmu
  | removeHook hmu => exact h.removeHook hmu
  | alloc hfree => exact h.alloc hfree
  | release hbase hcalls => exact h.release hbase hcalls
  | enter hm hattached hbase => exact h.enter hm hattached hbase
  | lookup hk hphase => exact h.lookup hk hphase
  | register hk hphase => exact h.register hk hphase
  | commit hk hphase => exact h.commit hk hphase
  | finish hk hphase => exact h.finish hk hphase

/-- What is registered and not unregistered is of a live block and an attached instance. -/
theorem Sound.open_live {r : Registration} (h : Sound s) (hr : r ∈ s.openRegistrations) :
    s.memory r.base = some (r.core, r.size) ∧ 0 < s.domains (r.core, r.domain) := by
  rcases List.mem_append.mp hr with hr | hr
  · obtain ⟨b, hb, hreg⟩ := List.mem_filterMap.mp hr
    unfold Block.registration at hreg
    split at hreg
    · cases hreg
      exact ⟨h.placed.block_live b hb, h.placed.block_attached b hb⟩
    · cases hreg
  · obtain ⟨c, hc, hreg⟩ := List.mem_filterMap.mp hr
    unfold Pinned.registration at hreg
    split at hreg
    · rename_i handle hphase
      have hlive : c.phase ≠ .ended := by
        rw [hphase]
        nofun
      split at hreg
      · cases hreg
        exact ⟨h.placed.call_live c hc hlive, h.call_domains hc hlive⟩
      · cases hreg
    · cases hreg

/-- In every state of a run: a core's byte count is the sum of the sizes of its blocks that are
locking or locked, within the cap; the total is the sum of the locked ones; each registration is
unregistered at most once, nothing else is, and one that is not yet is of memory that is live
and of a core and domain that have an instance. -/
theorem page_locks {es : List Event} (hp : Path Step Sys.init es s) :
    (∀ core l, s.locks core = some l →
      l.bytes = Ledger.total Block.size (Charged core) s.blocks ∧ l.bytes ≤ l.cap) ∧
    s.lockedBytes = Ledger.total Block.size (·.state = .locked) s.blocks ∧
    (∀ r, s.unregistered.count r ≤ s.registered.count r ∧ s.registered.count r ≤ 1) ∧
    ∀ r ∈ s.registered, s.unregistered.count r = 1 ∨
      s.memory r.base = some (r.core, r.size) ∧
        ∃ m ∈ s.instances, m.attached = true ∧ m.core = r.core ∧ m.domain = r.domain := by
  have h : Sound s := hp.invariant Sound.init fun _ _ _ hs ha => ha.step hs
  have hcount : ∀ r, s.registered.count r =
      s.unregistered.count r + s.openRegistrations.count r := fun r => by
    rw [h.booked.registry.count_eq, List.count_append]
  refine ⟨h.booked.bytes, h.booked.locked, fun r => ⟨?_, ?_⟩, fun r hr => ?_⟩
  · rw [hcount]
    exact Nat.le_add_right _ _
  · exact List.nodup_iff_count_le_one.mp h.booked.nodup r
  · have hone := List.count_eq_one_of_mem h.booked.nodup hr
    by_cases hopen : r ∈ s.openRegistrations
    · obtain ⟨hlive, hattached⟩ := h.open_live hopen
      rw [h.attached.domains_eq] at hattached
      obtain ⟨m, hm, hp⟩ := List.countP_pos_iff.mp hattached
      simp only [Bool.and_eq_true, beq_iff_eq] at hp
      exact .inr ⟨hlive, m, hm, hp.1, hp.2.1, hp.2.2⟩
    · have hzero := List.count_eq_zero.mpr hopen
      have := hcount r
      omega

/-- A block that is transferred twice, and released with the lock still on it. -/
def lockRun : List Event :=
  [.attach 0 0 true 100, .alloc 7 0 50, .enter 0 7 none, .lookup 0, .finish 0, .enter 0 7 none,
    .lookup 1, .register 1 true, .commit 1, .finish 1, .release 7]

theorem page_locks_released : ∃ s, Path Step Sys.init lockRun s ∧ s.registered.length = 1 ∧
    ∀ r ∈ s.registered, s.unregistered.count r = 1 := by
  have hended : ∀ {c d : Pinned}, c.phase = .ended → d.phase = .ended →
      ∀ e ∈ [c, d], e.base = 7 → e.phase = .ended := fun hc hd _ he _ => by
    rcases List.mem_pair.mp he with rfl | rfl
    · exact hc
    · exact hd
  have hrun : ∃ s, Path Step Sys.init lockRun s ∧ s.registered.length = 1 ∧ s.memory 7 = none ∧
      ∀ r ∈ s.registered, r.base = 7 :=
    ⟨_, .cons (.attach rfl) (.cons (.alloc rfl) (.cons (.enter rfl rfl rfl)
      (.cons (.lookup rfl rfl) (.cons (.finish rfl rfl) (.cons (.enter rfl rfl rfl)
      (.cons (.lookup rfl rfl) (.cons (.register rfl rfl) (.cons (.commit rfl rfl)
      (.cons (.finish rfl rfl) (.cons (.release rfl (hended rfl rfl)) (.nil _))))))))))),
      rfl, rfl, by decide⟩
  obtain ⟨s, hpath, hlength, hfree, hbase⟩ := hrun
  refine ⟨s, hpath, hlength, fun r hr => ?_⟩
  rcases (page_locks hpath).2.2.2 r hr with hone | ⟨hlive, -⟩
  · exact hone
  · rw [hbase r hr, hfree] at hlive
    cases hlive

end Sys

end NssFactory.FrameMemory

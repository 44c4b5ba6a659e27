import NssFactory.Lib.Queues

/-!
# The weight maps of NLM

`WeightSet`, `WeightCache` and `WeightLease`, which `cuda/nlm/filter.cpp` and
`vulkan/nlm/filter.cpp` have alike: the kernel of frame `n` saves its weight maps in a set, and
the kernel of frame `n + 1` loads them. The sets pass from request to request without a wait on
the host: the points behind the last kernels that saved and loaded a set are kept with it, and
the next kernel waits for them.

`Sound` is what the cache, the queued kernels and the leases have in common as long as a lease
is completed whenever its kernel is queued; how a backend waits for a point is `Ready`.
-/

namespace NssFactory.Gpu

/-- What a kernel does with the weight sets. -/
structure Kernel where
  frame : Nat
  load : Option Nat
  save : Option Nat
  deriving DecidableEq

/-- Weight maps. `written`, `read`: behind the last kernel that saved, loaded them. -/
structure WeightSet (Q : Type*) where
  written : Option (Point Q) := none
  read : Option (Point Q) := none
  /-- the frame that saved them, -1: none -/
  frame : Int := -1
  busy : Bool := false
  loaded : Bool := false
  used : Nat := 0

structure WeightCache (Q : Type*) where
  sets : List (WeightSet Q)
  clock : Nat := 0

/-- Where a request is. `queued i`: its kernel is operation `i` of the device. `thrown i`: after
that an exception passes, and the lease is destroyed next. `completed`: after `queued` or
`submitted`. `released`: the lease is gone. -/
inductive LeasePhase where
  | held
  | queued (kernel : Nat)
  | thrown (kernel : Nat)
  | completed
  | released
  | ended
  deriving DecidableEq

/-- The lease of the request for frame `n`, whose kernel goes to `queue`. -/
structure WeightLease (Q : Type*) where
  n : Nat
  queue : Q
  load : Option Nat
  save : Option Nat
  phase : LeasePhase

variable {Q : Type*}

/-- A set that was loaded or holds nothing before the oldest that still waits for its frame. -/
def WeightSet.rank (w : WeightSet Q) : Bool × Nat := (decide (0 ≤ w.frame) && !w.loaded, w.used)

/-- `operator<` of a pair. -/
def rankLess (r r' : Bool × Nat) : Bool :=
  r.1 < r'.1 || (r.1 == r'.1 && decide (r.2 < r'.2))

namespace WeightCache

def pickLoad (c : WeightCache Q) (n : Nat) : Option Nat :=
  c.sets.zipIdx.foldl (fun load (w, i) =>
    if 0 < n ∧ w.frame = (n : Int) - 1 ∧ !w.busy ∧ !w.loaded then some i else load) none

def pickSave (c : WeightCache Q) (load : Option Nat) : Option Nat :=
  (c.sets.zipIdx.foldl (fun (save : Option (Nat × WeightSet Q)) (w, i) =>
    if some i ≠ load ∧ !w.busy ∧ save.all (fun s => rankLess w.rank s.2.rank) then some (i, w)
    else save) none).map Prod.fst

/-- A statement about the set that `load_` or `save_` points to. -/
def modify (c : WeightCache Q) (set : Option Nat) (f : WeightSet Q → WeightSet Q) :
    WeightCache Q :=
  match set with
  | none => c
  | some i => { c with sets := c.sets.modify i f }

/-- A member of the set. -/
def point (c : WeightCache Q) (set : Option Nat) (f : WeightSet Q → Option (Point Q)) :
    Option (Point Q) :=
  set.bind fun i => c.sets[i]?.bind f

end WeightCache

/-- The waits of the constructor. -/
inductive LeaseWait where
  | load
  | written
  | read

/-- How a constructor ends: `false` when it throws. -/
structure Constructed (Q D : Type*) where
  cache : WeightCache Q
  device : D
  lease : WeightLease Q
  returned : Bool

section Construct

variable {D : Type*}

/-- Waits on the device, in turn, until one throws. -/
def waitAll (wait : LeaseWait → Option (Point Q) → D → Bool × D) :
    List (LeaseWait × Option (Point Q)) → D → Bool × D
  | [], d => (true, d)
  | (which, p) :: rest, d =>
    match wait which p d with
    | (true, d) => waitAll wait rest d
    | (false, d) => (false, d)

/-- The constructor of `WeightLease`, with the cache's lock held. `wait`: how the kernel is made
to wait for a point; it may throw. -/
def WeightLease.construct (wait : LeaseWait → Option (Point Q) → D → Bool × D)
    (c : WeightCache Q) (d : D) (n : Nat) (queue : Q) : Constructed Q D :=
  let load := c.pickLoad n
  let save := c.pickSave load
  let lease (phase : LeasePhase) : WeightLease Q := ⟨n, queue, load, save, phase⟩
  let c := c.modify load fun w => { w with busy := true }
  match waitAll wait (load.toList.map fun _ => (.load, c.point load (·.written))) d with
  | (false, d) => ⟨c, d, lease .ended, false⟩
  | (true, d) =>
    let c := c.modify save fun w => { w with busy := true, frame := -1 }
    match waitAll wait (save.toList.flatMap fun _ =>
        [(.written, c.point save (·.written)), (.read, c.point save (·.read))]) d with
    | (false, d) => ⟨c, d, lease .ended, false⟩
    | (true, d) => ⟨c, d, lease .held, true⟩

end Construct

/-! ## What the queued kernels do -/

abbrev KernelOps (Q : Type*) := List (Operation Q (Option Kernel))

def Kernel.Uses (k : Kernel) (w : Nat) : Prop := k.load = some w ∨ k.save = some w

/-- Two kernels of one set, one of which writes it. -/
def Conflict (a b : Option Kernel) : Prop :=
  ∃ k k' w, a = some k ∧ b = some k' ∧ k.Uses w ∧ k'.Uses w ∧ (k.save = some w ∨ k'.save = some w)

section Kernels

variable (ops : KernelOps Q)

def KernelAt (i : Nat) (k : Kernel) : Prop := ∃ a, ops[i]? = some a ∧ a.act = some k

def SavesAt (w i : Nat) : Prop := ∃ k, KernelAt ops i k ∧ k.save = some w

def UsesAt (w i : Nat) : Prop := ∃ k, KernelAt ops i k ∧ k.Uses w

/-- The last kernel before operation `j` that saves the set. -/
def LastSave (w j i : Nat) : Prop :=
  i < j ∧ SavesAt ops w i ∧ ∀ i', i < i' → i' < j → ¬ SavesAt ops w i'

/-- The last kernel that saves the set. -/
def LatestSave (w i : Nat) : Prop := SavesAt ops w i ∧ ∀ i', SavesAt ops w i' → i' ≤ i

/-- What waits for the point, if there is one, comes after operation `i`. -/
def Behind (p : Option (Point Q)) (i : Nat) : Prop := ∃ x, p = some x ∧ Reaches ops x i

end Kernels

/-- The kernel of a lease that is not completed is operation `j`. -/
def WeightLease.Launched (l : WeightLease Q) (j : Nat) : Prop :=
  l.phase = .queued j ∨ l.phase = .thrown j

/-- A request whose lease has the sets. -/
def WeightLease.Live (l : WeightLease Q) : Prop := l.phase = .held ∨ ∃ j, l.Launched j

def WeightLease.Uses (l : WeightLease Q) (w : Nat) : Prop := l.load = some w ∨ l.save = some w

def WeightLease.Holds (l : WeightLease Q) (w : Nat) : Prop := l.Live ∧ l.Uses w

/-- The operation is, or comes before, the kernel of a request that saves the set. -/
def Saving (ops : KernelOps Q) (leases : List (WeightLease Q)) (w i : Nat) : Prop :=
  ∃ l ∈ leases, l.save = some w ∧ ∃ j, l.Launched j ∧ (i = j ∨ Before ops i j)

/-- The operation is the kernel of a request that loads the set. -/
def Loading (leases : List (WeightLease Q)) (w i : Nat) : Prop :=
  ∃ l ∈ leases, l.load = some w ∧ l.Launched i

/-- No two requests hold the same set. -/
def HeldAlone (leases : List (WeightLease Q)) : Prop :=
  ∀ (j k : Nat) l l' w, leases[j]? = some l → leases[k]? = some l' → l.Holds w → l'.Holds w → j = k

/-- What is promised of the weight maps. -/
structure Safe (c : WeightCache Q) (ops : KernelOps Q) (leases : List (WeightLease Q)) : Prop where
  /-- a kernel loads what the kernel of the frame before it saved -/
  loads : ∀ j k w, KernelAt ops j k → k.load = some w → ∃ i k', LastSave ops w j i ∧
    KernelAt ops i k' ∧ k'.frame + 1 = k.frame ∧ Before ops i j
  ordered : Ordered Conflict ops
  parted : ∀ l ∈ leases, ∀ w, l.load = some w → l.save ≠ some w
  alone : HeldAlone leases
  /-- a set is given back at the latest when its request ends -/
  returned : ∀ (w : Nat) x, c.sets[w]? = some x → x.busy = true → ∃ l ∈ leases, l.Holds w

/-! ## The invariant -/

/-- What the points that a set keeps reach. `fresh`: no kernel has loaded the maps yet. -/
structure SetSound (ops : KernelOps Q) (leases : List (WeightLease Q)) (w : Nat)
    (x : WeightSet Q) : Prop where
  content : 0 ≤ x.frame → ∃ i k, LatestSave ops w i ∧ KernelAt ops i k ∧
    (k.frame : Int) = x.frame
  saves : ∀ i, SavesAt ops w i → Behind ops x.written i ∨ Saving ops leases w i
  uses : ∀ i, UsesAt ops w i → (Behind ops x.written i ∨ Behind ops x.read i) ∨
    Saving ops leases w i ∨ Loading leases w i
  fresh : 0 ≤ x.frame → x.loaded = false → ∀ i, UsesAt ops w i →
    Behind ops x.written i ∨ Loading leases w i

/-- `Ready q i`: a kernel that is queued next on `q` comes after operation `i`. -/
structure LeaseSound (c : WeightCache Q) (ops : KernelOps Q) (Ready : Q → Nat → Prop)
    (l : WeightLease Q) : Prop where
  load : ∀ w, l.Live → l.load = some w → ∃ x, c.sets[w]? = some x ∧ 0 ≤ x.frame ∧
    x.frame + 1 = l.n ∧ x.loaded = false
  save : ∀ w, l.Live → l.save = some w → ∃ x, c.sets[w]? = some x ∧ x.frame = -1
  loadReady : ∀ w i, l.phase = .held → l.load = some w → SavesAt ops w i → Ready l.queue i
  saveReady : ∀ w i, l.phase = .held → l.save = some w → UsesAt ops w i → Ready l.queue i
  kernel : ∀ j, l.Launched j → KernelAt ops j ⟨l.n, l.load, l.save⟩
  saved : ∀ j w, l.Launched j → l.save = some w → LatestSave ops w j ∧
    ∀ i, UsesAt ops w i → i = j ∨ Before ops i j

structure Sound (c : WeightCache Q) (ops : KernelOps Q) (leases : List (WeightLease Q))
    (Ready : Q → Nat → Prop) : Prop extends Safe c ops leases where
  busy : ∀ (w : Nat) x l, c.sets[w]? = some x → l ∈ leases → l.Holds w → x.busy = true
  sets : ∀ (w : Nat) x, c.sets[w]? = some x → SetSound ops leases w x
  leases : ∀ l ∈ leases, LeaseSound c ops Ready l

/-! ## Lemmas -/

theorem WeightLease.Launched.not_held {l : WeightLease Q} {j : Nat} (h : l.Launched j) :
    l.phase ≠ .held := by
  intro hheld
  rcases h with h | h <;> rw [hheld] at h <;> cases h

theorem WeightLease.Launched.unique {l : WeightLease Q} {i j : Nat} (h : l.Launched i)
    (h' : l.Launched j) : i = j := by
  rcases h with h | h <;> rcases h' with h' | h' <;> rw [h] at h' <;> cases h' <;> rfl

section Lemmas

variable {c : WeightCache Q} {ops more : KernelOps Q} {op : Operation Q (Option Kernel)}
  {leases : List (WeightLease Q)} {l : WeightLease Q} {x : WeightSet Q} {p : Option (Point Q)}
  {k k' : Kernel} {n w i j : Nat}

theorem pickLoad_spec (h : c.pickLoad n = some w) : ∃ x, c.sets[w]? = some x ∧ 0 < n ∧
    x.frame = (n : Int) - 1 ∧ x.busy = false ∧ x.loaded = false := by
  let Spec (r : Option Nat) : Prop := ∀ w, r = some w → ∃ x, c.sets[w]? = some x ∧ 0 < n ∧
    x.frame = (n : Int) - 1 ∧ x.busy = false ∧ x.loaded = false
  suffices hall : Spec (c.pickLoad n) from hall w h
  unfold WeightCache.pickLoad
  apply List.foldlRecOn (motive := Spec)
  · intro w h
    cases h
  rintro load ih ⟨x, i⟩ hx w h
  dsimp only at h
  split at h
  · next hpick =>
    obtain rfl := Option.some.inj h
    exact ⟨x, List.mem_zipIdx_iff_getElem?.mp hx, by simpa using hpick⟩
  · exact ih w h

theorem pickSave_spec {load : Option Nat} (h : c.pickSave load = some w) :
    ∃ x, c.sets[w]? = some x ∧ x.busy = false ∧ load ≠ some w := by
  let Spec (r : Option (Nat × WeightSet Q)) : Prop := ∀ i y, r = some (i, y) →
    ∃ x, c.sets[i]? = some x ∧ x.busy = false ∧ load ≠ some i
  obtain ⟨⟨i, y⟩, hfold, rfl⟩ := Option.map_eq_some_iff.mp h
  suffices hall : Spec _ from hall i y hfold
  apply List.foldlRecOn (motive := Spec)
  · intro i y h
    cases h
  rintro save ih ⟨x, i'⟩ hx i y h
  dsimp only at h
  split at h
  · next hpick =>
    obtain ⟨rfl, rfl⟩ := Prod.mk.inj (Option.some.inj h)
    obtain ⟨hload, hbusy, -⟩ := hpick
    exact ⟨_, List.mem_zipIdx_iff_getElem?.mp hx, by simpa using hbusy, Ne.symm hload⟩
  · exact ih i y h

@[simp] theorem WeightCache.getElem?_modify (c : WeightCache Q) (set : Option Nat)
    (f : WeightSet Q → WeightSet Q) (w : Nat) :
    (c.modify set f).sets[w]? = c.sets[w]?.map fun x => if set = some w then f x else x := by
  cases set with
  | none => simp [WeightCache.modify]
  | some i => simp [WeightCache.modify, List.getElem?_modify, Option.map_eq_map]

theorem KernelAt.lt (h : KernelAt ops i k) : i < ops.length := by
  obtain ⟨a, ha, -⟩ := h
  exact (List.getElem?_eq_some_iff.mp ha).1

theorem kernelAt_append (hmore : ∀ a ∈ more, a.act = none) :
    KernelAt (ops ++ more) i k ↔ KernelAt ops i k := by
  constructor
  · rintro ⟨a, ha, hk⟩
    rcases Nat.lt_or_ge i ops.length with hi | hi
    · rw [List.getElem?_append_left hi] at ha
      exact ⟨a, ha, hk⟩
    · rw [List.getElem?_append_right hi] at ha
      rw [hmore a (List.mem_of_getElem? ha)] at hk
      cases hk
  · rintro ⟨a, ha, hk⟩
    exact ⟨a, getElem?_append ha, hk⟩

theorem kernelAt_snoc (hop : op.act = some k') :
    KernelAt (ops ++ [op]) i k ↔ KernelAt ops i k ∨ i = ops.length ∧ k = k' := by
  constructor
  · rintro ⟨a, ha, hk⟩
    rcases Calls.getElem?_snoc_iff.mp ha with ha | ⟨rfl, rfl⟩
    · exact .inl ⟨a, ha, hk⟩
    · exact .inr ⟨rfl, Option.some.inj (hk.symm.trans hop)⟩
  · rintro (⟨a, ha, hk⟩ | ⟨rfl, rfl⟩)
    · exact ⟨a, getElem?_append ha, hk⟩
    · exact ⟨op, getElem?_last, hop⟩

theorem SavesAt.uses (h : SavesAt ops w i) : UsesAt ops w i := by
  obtain ⟨k, hk, hw⟩ := h
  exact ⟨k, hk, .inr hw⟩

theorem UsesAt.lt (h : UsesAt ops w i) : i < ops.length := by
  obtain ⟨k, hk, -⟩ := h
  exact hk.lt

theorem Behind.append (h : Behind ops p i) : Behind (ops ++ more) p i := by
  obtain ⟨x, hp, hx⟩ := h
  exact ⟨x, hp, hx.append⟩

theorem Saving.append (h : Saving ops leases w i) : Saving (ops ++ more) leases w i := by
  obtain ⟨l, hl, hw, j, hj, hij⟩ := h
  exact ⟨l, hl, hw, j, hj, hij.imp_right Before.append⟩

theorem savesAt_append (hmore : ∀ a ∈ more, a.act = none) :
    SavesAt (ops ++ more) w i ↔ SavesAt ops w i := by
  simp only [SavesAt, kernelAt_append hmore]

theorem usesAt_append (hmore : ∀ a ∈ more, a.act = none) :
    UsesAt (ops ++ more) w i ↔ UsesAt ops w i := by
  simp only [UsesAt, kernelAt_append hmore]

theorem savesAt_snoc (hop : op.act = some k) :
    SavesAt (ops ++ [op]) w i ↔ SavesAt ops w i ∨ i = ops.length ∧ k.save = some w := by
  constructor
  · rintro ⟨k', hk', hw⟩
    rcases (kernelAt_snoc hop).mp hk' with hold | ⟨hi, rfl⟩
    · exact .inl ⟨k', hold, hw⟩
    · exact .inr ⟨hi, hw⟩
  · rintro (⟨k', hk', hw⟩ | ⟨hi, hw⟩)
    · exact ⟨k', (kernelAt_snoc hop).mpr (.inl hk'), hw⟩
    · exact ⟨k, (kernelAt_snoc hop).mpr (.inr ⟨hi, rfl⟩), hw⟩

theorem usesAt_snoc (hop : op.act = some k) :
    UsesAt (ops ++ [op]) w i ↔ UsesAt ops w i ∨ i = ops.length ∧ k.Uses w := by
  constructor
  · rintro ⟨k', hk', hw⟩
    rcases (kernelAt_snoc hop).mp hk' with hold | ⟨hi, rfl⟩
    · exact .inl ⟨k', hold, hw⟩
    · exact .inr ⟨hi, hw⟩
  · rintro (⟨k', hk', hw⟩ | ⟨hi, hw⟩)
    · exact ⟨k', (kernelAt_snoc hop).mpr (.inl hk'), hw⟩
    · exact ⟨k, (kernelAt_snoc hop).mpr (.inr ⟨hi, rfl⟩), hw⟩

theorem SavesAt.lt (h : SavesAt ops w i) : i < ops.length := h.uses.lt

end Lemmas

/-! ## What keeps the invariant -/

section Steps

variable {c c' : WeightCache Q} {ops more : KernelOps Q} {op : Operation Q (Option Kernel)}
  {leases : List (WeightLease Q)} {l l' : WeightLease Q} {Ready Ready' : Q → Nat → Prop} {k : Nat}

/-- Operations that are not kernels. -/
theorem Sound.idle (h : Sound c ops leases Ready) (hmore : ∀ a ∈ more, a.act = none)
    (hready : ∀ l ∈ leases, l.phase = .held → ∀ i, i < ops.length → Ready l.queue i →
      Ready' l.queue i) :
    Sound c (ops ++ more) leases Ready' where
  loads j k w hk hw := by
    obtain ⟨i, k', ⟨hij, hsave, hlast⟩, hk', hn, hbefore⟩ :=
      h.loads j k w ((kernelAt_append hmore).mp hk) hw
    refine ⟨i, k', ⟨hij, (savesAt_append hmore).mpr hsave, fun i' hi hj hsave' => ?_⟩,
      (kernelAt_append hmore).mpr hk', hn, hbefore.append⟩
    exact hlast i' hi hj ((savesAt_append hmore).mp hsave')
  ordered := by
    apply h.ordered.append
    rintro b hb x ⟨k, k', w, -, hk', -⟩
    rw [hmore b hb] at hk'
    cases hk'
  parted := h.parted
  alone := h.alone
  returned := h.returned
  busy := h.busy
  sets w x hx := by
    have hset := h.sets w x hx
    constructor
    · intro hframe
      obtain ⟨i, k, ⟨hsave, hlast⟩, hk, hn⟩ := hset.content hframe
      exact ⟨i, k, ⟨(savesAt_append hmore).mpr hsave, fun i' hi' =>
        hlast i' ((savesAt_append hmore).mp hi')⟩, (kernelAt_append hmore).mpr hk, hn⟩
    · intro i hi
      exact (hset.saves i ((savesAt_append hmore).mp hi)).imp Behind.append Saving.append
    · intro i hi
      exact (hset.uses i ((usesAt_append hmore).mp hi)).imp
        (Or.imp Behind.append Behind.append) (Or.imp_left Saving.append)
    · intro hframe hloaded i hi
      exact (hset.fresh hframe hloaded i ((usesAt_append hmore).mp hi)).imp_left Behind.append
  leases l hl := by
    have hlease := h.leases l hl
    refine ⟨hlease.load, hlease.save, fun w i hheld hw hi => ?_, fun w i hheld hw hi => ?_,
      fun j hj => ?_, fun j w hj hw => ?_⟩
    · rw [savesAt_append hmore] at hi
      exact hready l hl hheld i hi.lt (hlease.loadReady w i hheld hw hi)
    · rw [usesAt_append hmore] at hi
      exact hready l hl hheld i hi.lt (hlease.saveReady w i hheld hw hi)
    · exact (kernelAt_append hmore).mpr (hlease.kernel j hj)
    · obtain ⟨⟨hsave, hlast⟩, huses⟩ := hlease.saved j w hj hw
      refine ⟨⟨(savesAt_append hmore).mpr hsave, fun i hi =>
        hlast i ((savesAt_append hmore).mp hi)⟩, fun i hi => ?_⟩
      exact (huses i ((usesAt_append hmore).mp hi)).imp_right Before.append

/-- Nothing is queued, and every set is as it was created. -/
theorem sound_start (count : Nat) :
    Sound { sets := List.replicate count {} } ([] : KernelOps Q) [] Ready := by
  have hnone : ∀ {i k}, ¬ KernelAt ([] : KernelOps Q) i k := by
    rintro i k ⟨a, ha, -⟩
    simp at ha
  have hset : ∀ {w : Nat} {x}, (List.replicate count ({} : WeightSet Q))[w]? = some x → x = {} := by
    intro w x hx
    exact List.eq_of_mem_replicate (List.mem_of_getElem? hx)
  have hlease : ∀ {l : WeightLease Q}, l ∉ ([] : List (WeightLease Q)) := List.not_mem_nil
  constructor
  · refine ⟨fun j k w hk => absurd hk hnone, ordered_nil, fun l hl => absurd hl hlease, fun j k l l' w hl => ?_,
      fun w x hx hbusy => ?_⟩
    · simp at hl
    · rw [hset hx] at hbusy
      cases hbusy
  · intro w x l _ hl
    exact absurd hl hlease
  · intro w x hx
    rw [hset hx]
    refine ⟨nofun, ?_, ?_, nofun⟩
    · rintro i ⟨k, hk, -⟩
      exact absurd hk hnone
    · rintro i ⟨k, hk, -⟩
      exact absurd hk hnone
  · intro l hl
    exact absurd hl hlease

/-- A request that holds no more than it did. -/
theorem HeldAlone.set (h : HeldAlone leases) (hl : leases[k]? = some l)
    (hl' : ∀ w, l'.Holds w → l.Holds w) : HeldAlone (leases.set k l') := by
  have hold : ∀ {j : Nat} {l₁ : WeightLease Q} {w : Nat},
      (leases.set k l')[j]? = some l₁ → l₁.Holds w →
      ∃ l₂, leases[j]? = some l₂ ∧ l₂.Holds w := by
    intro j l₁ w hj hw
    rcases (Calls.getElem?_set_iff hl).mp hj with ⟨rfl, rfl⟩ | ⟨-, hj⟩
    · exact ⟨l, hl, hl' w hw⟩
    · exact ⟨l₁, hj, hw⟩
  intro i j l₁ l₂ w hi hj hw₁ hw₂
  obtain ⟨l₁', hi', hw₁'⟩ := hold hi hw₁
  obtain ⟨l₂', hj', hw₂'⟩ := hold hj hw₂
  exact h i j l₁' l₂' w hi' hj' hw₁' hw₂'

/-- The kernel of a request: it waits for what `Ready` says, and is behind nothing yet. -/
theorem Sound.queue (h : Sound c ops leases Ready) (hl : leases[k]? = some l)
    (hheld : l.phase = .held) (hop : op.act = some ⟨l.n, l.load, l.save⟩)
    (hbefore : ∀ i, Ready l.queue i → Before (ops ++ [op]) i ops.length)
    (hready : ∀ j l₂, j ≠ k → leases[j]? = some l₂ → l₂.phase = .held → ∀ i, i < ops.length →
      Ready l₂.queue i → Ready' l₂.queue i) :
    Sound c (ops ++ [op]) (leases.set k { l with phase := .queued ops.length }) Ready' := by
  have hmem := List.mem_of_getElem? hl
  have hlive : l.Live := .inl hheld
  have hlease := h.leases l hmem
  -- nobody else holds a set of the kernel
  have hother : ∀ {j l₂ w}, j ≠ k → leases[j]? = some l₂ → l₂.Holds w → ¬ l.Uses w :=
    fun hj hl₂ hw huses => hj (h.alone _ k _ l _ hl₂ hl hw ⟨hlive, huses⟩)
  have hkeep : ∀ {l₂}, l₂ ∈ leases → l₂.phase ≠ .held →
      l₂ ∈ leases.set k { l with phase := .queued ops.length } := by
    intro l₂ hl₂ hphase
    apply Calls.mem_set_of_ne hl hl₂
    rintro rfl
    exact hphase hheld
  have hself : ({ l with phase := .queued ops.length } : WeightLease Q) ∈
      leases.set k { l with phase := .queued ops.length } := Calls.mem_set hl
  have hsaving : ∀ {w i}, Saving ops leases w i →
      Saving (ops ++ [op]) (leases.set k { l with phase := .queued ops.length }) w i := by
    rintro w i ⟨l₂, hl₂, hw, j, hj, hij⟩
    exact ⟨l₂, hkeep hl₂ hj.not_held, hw, j, hj, hij.imp_right Before.append⟩
  have hloading : ∀ {w i}, Loading leases w i →
      Loading (leases.set k { l with phase := .queued ops.length }) w i := by
    rintro w i ⟨l₂, hl₂, hw, hj⟩
    exact ⟨l₂, hkeep hl₂ hj.not_held, hw, hj⟩
  have hlast : ∀ {w j i}, j ≤ ops.length → LastSave ops w j i → LastSave (ops ++ [op]) w j i := by
    rintro w j i hj ⟨hij, hsave, hlast⟩
    refine ⟨hij, (savesAt_snoc hop).mpr (.inl hsave), fun i' hi hi' hsave' => ?_⟩
    rcases (savesAt_snoc hop).mp hsave' with hsave' | ⟨rfl, -⟩
    · exact hlast i' hi hi' hsave'
    · omega
  constructor
  · constructor
    · intro j k' w hk' hw
      rcases (kernelAt_snoc hop).mp hk' with hold | ⟨rfl, rfl⟩
      · obtain ⟨i, k₂, hlast', hk₂, hn, hij⟩ := h.loads j k' w hold hw
        exact ⟨i, k₂, hlast (Nat.le_of_lt hold.lt) hlast', (kernelAt_snoc hop).mpr (.inl hk₂), hn,
          hij.append⟩
      · -- the set holds what the frame before saved
        obtain ⟨x, hx, hpos, hframe, -⟩ := hlease.load w hlive hw
        obtain ⟨i, k₂, ⟨hsave, hlatest⟩, hk₂, hn⟩ := (h.sets w x hx).content hpos
        refine ⟨i, k₂, hlast (Nat.le_refl _) ⟨hsave.lt, hsave, fun i' hi hi' hsave' => ?_⟩,
          (kernelAt_snoc hop).mpr (.inl hk₂), ?_, hbefore i (hlease.loadReady w i hheld hw hsave)⟩
        · exact absurd (hlatest i' hsave') (by omega)
        · have hnat : (k₂.frame : Int) + 1 = l.n := by rw [hn, hframe]
          exact_mod_cast hnat
    · apply h.ordered.snoc
      rintro i a ha ⟨k₁, k₂, w, hk₁, hk₂, huses, huses', hwrite⟩
      obtain rfl := Option.some.inj (hop.symm.trans hk₂)
      have hat : KernelAt ops i k₁ := ⟨a, ha, hk₁⟩
      apply hbefore
      by_cases hsave : l.save = some w
      · exact hlease.saveReady w i hheld hsave ⟨k₁, hat, huses⟩
      · have hload : l.load = some w := huses'.resolve_right hsave
        exact hlease.loadReady w i hheld hload ⟨k₁, hat, hwrite.resolve_right hsave⟩
    · exact Calls.forall_set (h.parted l hmem) h.parted
    · exact h.alone.set hl fun w hw => ⟨hlive, hw.2⟩
    · intro w x hx hbusy
      obtain ⟨l₂, hl₂, hw⟩ := h.returned w x hx hbusy
      by_cases heq : l₂ = l
      · subst heq
        exact ⟨_, hself, .inr ⟨_, .inl rfl⟩, hw.2⟩
      · exact ⟨l₂, Calls.mem_set_of_ne hl hl₂ heq, hw⟩
  · intro w x l₂ hx hl₂ hw
    rcases List.mem_or_eq_of_mem_set hl₂ with hl₂ | rfl
    · exact h.busy w x l₂ hx hl₂ hw
    · exact h.busy w x l hx hmem ⟨hlive, hw.2⟩
  · intro w x hx
    have hset := h.sets w x hx
    have hnotSave : 0 ≤ x.frame → l.save ≠ some w := by
      intro hframe hsave
      obtain ⟨x', hx', hnone⟩ := hlease.save w hlive hsave
      obtain rfl := Option.some.inj (hx.symm.trans hx')
      omega
    constructor
    · intro hframe
      obtain ⟨i, k', ⟨hsave, hlatest⟩, hk', hn⟩ := hset.content hframe
      refine ⟨i, k', ⟨(savesAt_snoc hop).mpr (.inl hsave), fun i' hi' => ?_⟩,
        (kernelAt_snoc hop).mpr (.inl hk'), hn⟩
      exact hlatest i' (((savesAt_snoc hop).mp hi').resolve_right fun hi => hnotSave hframe hi.2)
    · intro i hi
      rcases (savesAt_snoc hop).mp hi with hold | ⟨rfl, hsave⟩
      · exact (hset.saves i hold).imp Behind.append hsaving
      · exact .inr ⟨_, hself, hsave, _, .inl rfl, .inl rfl⟩
    · intro i hi
      rcases (usesAt_snoc hop).mp hi with hold | ⟨rfl, hload | hsave⟩
      · exact (hset.uses i hold).imp (Or.imp Behind.append Behind.append)
          (Or.imp hsaving hloading)
      · exact .inr (.inr ⟨_, hself, hload, .inl rfl⟩)
      · exact .inr (.inl ⟨_, hself, hsave, _, .inl rfl, .inl rfl⟩)
    · intro hframe hloaded i hi
      rcases (usesAt_snoc hop).mp hi with hold | ⟨rfl, hload | hsave⟩
      · exact (hset.fresh hframe hloaded i hold).imp Behind.append hloading
      · exact .inr ⟨_, hself, hload, .inl rfl⟩
      · exact absurd hsave (hnotSave hframe)
  · intro l₂ hl₂
    obtain ⟨j, hj⟩ := List.mem_iff_getElem?.mp hl₂
    rcases (Calls.getElem?_set_iff hl).mp hj with ⟨rfl, rfl⟩ | ⟨hne, hj⟩
    · refine ⟨fun w _ => hlease.load w hlive, fun w _ => hlease.save w hlive, nofun, nofun,
        fun j hj => ?_, fun j w hj hw => ?_⟩
      · obtain rfl := hj.unique (.inl rfl)
        exact (kernelAt_snoc hop).mpr (.inr ⟨rfl, rfl⟩)
      · obtain rfl := hj.unique (.inl rfl)
        refine ⟨⟨(savesAt_snoc hop).mpr (.inr ⟨rfl, hw⟩), fun i hi => ?_⟩, fun i hi => ?_⟩
        · have hlt := hi.lt
          rw [List.length_append, List.length_singleton] at hlt
          omega
        · rcases (usesAt_snoc hop).mp hi with hold | ⟨rfl, -⟩
          · exact .inr (hbefore i (hlease.saveReady w i hheld hw hold))
          · exact .inl rfl
    · have hlease₂ := h.leases l₂ (List.mem_of_getElem? hj)
      refine ⟨hlease₂.load, hlease₂.save, fun w i hheld₂ hw hi => ?_, fun w i hheld₂ hw hi => ?_,
        fun j hj => (kernelAt_snoc hop).mpr (.inl (hlease₂.kernel j hj)), fun i w hi hw => ?_⟩
      · rcases (savesAt_snoc hop).mp hi with hold | ⟨rfl, hsave⟩
        · exact hready j l₂ hne hj hheld₂ i hold.lt (hlease₂.loadReady w i hheld₂ hw hold)
        · exact absurd (.inr hsave) (hother hne hj ⟨.inl hheld₂, .inl hw⟩)
      · rcases (usesAt_snoc hop).mp hi with hold | ⟨rfl, huses⟩
        · exact hready j l₂ hne hj hheld₂ i hold.lt (hlease₂.saveReady w i hheld₂ hw hold)
        · exact absurd huses (hother hne hj ⟨.inl hheld₂, .inr hw⟩)
      · -- the new kernel uses another set
        have hunused : ¬ l.Uses w := hother hne hj ⟨.inr ⟨i, hi⟩, .inr hw⟩
        obtain ⟨⟨hsave, hlatest⟩, huses⟩ := hlease₂.saved i w hi hw
        refine ⟨⟨(savesAt_snoc hop).mpr (.inl hsave), fun i' hi' => ?_⟩, fun i' hi' => ?_⟩
        · exact hlatest i' (((savesAt_snoc hop).mp hi').resolve_right fun hi => hunused (.inr hi.2))
        · have hold := ((usesAt_snoc hop).mp hi').resolve_right fun hi => hunused hi.2
          exact (huses i' hold).imp_right Before.append

/-- The sets of a lease change, the others do not. -/
theorem getElem?_modified {load save : WeightSet Q → WeightSet Q} (w : Nat) :
    ((c.modify l.load load).modify l.save save).sets[w]? = c.sets[w]?.map fun x =>
      if l.save = some w then save (if l.load = some w then load x else x)
      else if l.load = some w then load x else x := by
  rw [WeightCache.getElem?_modify, WeightCache.getElem?_modify, Option.map_map]
  rfl

theorem modified_load {load save : WeightSet Q → WeightSet Q} {w : Nat} (hload : l.load = some w)
    (hsave : l.save ≠ some w) :
    ((c.modify l.load load).modify l.save save).sets[w]? = c.sets[w]?.map load := by
  rw [getElem?_modified]
  simp only [if_neg hsave, if_pos hload]

theorem modified_save {load save : WeightSet Q → WeightSet Q} {w : Nat} (hload : l.load ≠ some w)
    (hsave : l.save = some w) :
    ((c.modify l.load load).modify l.save save).sets[w]? = c.sets[w]?.map save := by
  rw [getElem?_modified]
  simp only [if_pos hsave, if_neg hload]

theorem modified_unused {load save : WeightSet Q → WeightSet Q} {w : Nat} (hw : ¬ l.Uses w) :
    ((c.modify l.load load).modify l.save save).sets[w]? = c.sets[w]? := by
  obtain ⟨hload, hsave⟩ := not_or.mp hw
  rw [getElem?_modified]
  simp only [if_neg hsave, if_neg hload, Option.map_id']

theorem modified_cases {load save : WeightSet Q → WeightSet Q} {w : Nat} {y : WeightSet Q}
    (hparted : l.load = some w → l.save ≠ some w)
    (hy : ((c.modify l.load load).modify l.save save).sets[w]? = some y) :
    ∃ x, c.sets[w]? = some x ∧ (l.load = some w ∧ y = load x ∨ l.save = some w ∧ y = save x ∨
      ¬ l.Uses w ∧ y = x) := by
  by_cases hload : l.load = some w
  · rw [modified_load hload (hparted hload)] at hy
    obtain ⟨x, hx, rfl⟩ := Option.map_eq_some_iff.mp hy
    exact ⟨x, hx, .inl ⟨hload, rfl⟩⟩
  · by_cases hsave : l.save = some w
    · rw [modified_save hload hsave] at hy
      obtain ⟨x, hx, rfl⟩ := Option.map_eq_some_iff.mp hy
      exact ⟨x, hx, .inr (.inl ⟨hsave, rfl⟩)⟩
    · have hunused : ¬ l.Uses w := not_or.mpr ⟨hload, hsave⟩
      rw [modified_unused hunused] at hy
      exact ⟨y, hy, .inr (.inr ⟨hunused, rfl⟩)⟩

theorem SetSound.mono {leases' : List (WeightLease Q)} {w : Nat} {x : WeightSet Q}
    (h : SetSound ops leases w x) (hsaving : ∀ i, Saving ops leases w i → Saving ops leases' w i)
    (hloading : ∀ i, Loading leases w i → Loading leases' w i) : SetSound ops leases' w x :=
  ⟨h.content, fun i hi => (h.saves i hi).imp_right (hsaving i),
    fun i hi => (h.uses i hi).imp_right (Or.imp (hsaving i) (hloading i)),
    fun hframe hloaded i hi => (h.fresh hframe hloaded i hi).imp_right (hloading i)⟩

/-- The kernels of the set are still there. -/
theorem SetSound.imp {leases' : List (WeightLease Q)} {w : Nat} {x : WeightSet Q}
    (h : SetSound ops leases w x)
    (hl : ∀ l ∈ leases, l.Uses w → (∃ j, l.Launched j) → l ∈ leases') :
    SetSound ops leases' w x := by
  apply h.mono
  · rintro i ⟨l, hmem, hw, j, hj, hij⟩
    exact ⟨l, hl l hmem (.inr hw) ⟨j, hj⟩, hw, j, hj, hij⟩
  · rintro i ⟨l, hmem, hw, hj⟩
    exact ⟨l, hl l hmem (.inl hw) ⟨i, hj⟩, hw, hj⟩

/-- The sets of a lease are those they were. -/
theorem LeaseSound.imp {c' : WeightCache Q} (h : LeaseSound c ops Ready l)
    (hsets : ∀ w, l.Holds w → c'.sets[w]? = c.sets[w]?) : LeaseSound c' ops Ready l where
  load w hlive hw := by
    rw [hsets w ⟨hlive, .inl hw⟩]
    exact h.load w hlive hw
  save w hlive hw := by
    rw [hsets w ⟨hlive, .inr hw⟩]
    exact h.save w hlive hw
  loadReady := h.loadReady
  saveReady := h.saveReady
  kernel := h.kernel
  saved := h.saved

theorem LeaseSound.of_not_live (h : ¬ l.Live) : LeaseSound c ops Ready l where
  load _ hlive := absurd hlive h
  save _ hlive := absurd hlive h
  loadReady _ _ hheld := absurd (.inl hheld) h
  saveReady _ _ hheld := absurd (.inl hheld) h
  kernel j hj := absurd (.inr ⟨j, hj⟩) h
  saved j _ hj := absurd (.inr ⟨j, hj⟩) h

/-- A new lease. Its sets were free, so what used them is behind the points they keep. -/
theorem Sound.enter (h : Sound c ops leases Ready) (hheld : l.phase = .held)
    (hload : ∀ w, l.load = some w → ∃ x, c.sets[w]? = some x ∧ x.busy = false ∧ 0 ≤ x.frame ∧
      x.frame + 1 = l.n ∧ x.loaded = false ∧ ∀ i, Behind ops x.written i → Ready l.queue i)
    (hsave : ∀ w, l.save = some w → ∃ x, c.sets[w]? = some x ∧ x.busy = false ∧
      l.load ≠ some w ∧ ∀ i, Behind ops x.written i ∨ Behind ops x.read i → Ready l.queue i) :
    Sound ((c.modify l.load fun x => { x with busy := true }).modify l.save
      fun x => { x with busy := true, frame := -1 }) ops (leases ++ [l]) Ready := by
  have hlive : l.Live := .inl hheld
  have hparted : ∀ w, l.load = some w → l.save ≠ some w := by
    intro w hw hw'
    obtain ⟨x, -, -, hne, -⟩ := hsave w hw'
    exact hne hw
  have hfree : ∀ {w l₂}, l.Uses w → l₂ ∈ leases → ¬ l₂.Holds w := by
    rintro w l₂ (hw | hw) hl₂ hholds
    · obtain ⟨x, hx, hbusy, -⟩ := hload w hw
      rw [h.busy w x l₂ hx hl₂ hholds] at hbusy
      cases hbusy
    · obtain ⟨x, hx, hbusy, -⟩ := hsave w hw
      rw [h.busy w x l₂ hx hl₂ hholds] at hbusy
      cases hbusy
  have hnoSaving : ∀ {w i}, l.Uses w → ¬ Saving ops leases w i := by
    rintro w i hw ⟨l₂, hl₂, hsave, j, hj, -⟩
    exact hfree hw hl₂ ⟨.inr ⟨j, hj⟩, .inr hsave⟩
  have hnoLoading : ∀ {w i}, l.Uses w → ¬ Loading leases w i := by
    rintro w i hw ⟨l₂, hl₂, hload, hj⟩
    exact hfree hw hl₂ ⟨.inr ⟨i, hj⟩, .inl hload⟩
  have hlast : ∀ {l₂}, l₂ ∈ leases ++ [l] → l₂ ∈ leases ∨ l₂ = l := by
    intro l₂ hl₂
    simpa using hl₂
  constructor
  · refine ⟨h.loads, h.ordered, fun l₂ hl₂ => ?_, ?_, fun w y hy hbusy => ?_⟩
    · rcases hlast hl₂ with hl₂ | rfl
      · exact h.parted l₂ hl₂
      · exact hparted
    · intro i j l₁ l₂ w hi hj hw₁ hw₂
      rcases Calls.getElem?_snoc_iff.mp hi with hi' | ⟨rfl, rfl⟩ <;>
        rcases Calls.getElem?_snoc_iff.mp hj with hj' | ⟨rfl, rfl⟩
      · exact h.alone i j l₁ l₂ w hi' hj' hw₁ hw₂
      · exact absurd hw₁ (hfree hw₂.2 (List.mem_of_getElem? hi'))
      · exact absurd hw₂ (hfree hw₁.2 (List.mem_of_getElem? hj'))
      · rfl
    · obtain ⟨x, hx, ⟨hw, -⟩ | ⟨hw, -⟩ | ⟨-, rfl⟩⟩ := modified_cases (hparted w) hy
      · exact ⟨l, by simp, hlive, .inl hw⟩
      · exact ⟨l, by simp, hlive, .inr hw⟩
      · obtain ⟨l₂, hl₂, hholds⟩ := h.returned w y hx hbusy
        exact ⟨l₂, List.mem_append_left _ hl₂, hholds⟩
  · intro w y l₂ hy hl₂ hholds
    obtain ⟨x, hx, ⟨-, rfl⟩ | ⟨-, rfl⟩ | ⟨huses, rfl⟩⟩ := modified_cases (hparted w) hy
    · rfl
    · rfl
    · rcases hlast hl₂ with hl₂ | rfl
      · exact h.busy w y l₂ hx hl₂ hholds
      · exact absurd hholds.2 huses
  · intro w y hy
    obtain ⟨x, hx, hcases⟩ := modified_cases (hparted w) hy
    have hset : SetSound ops (leases ++ [l]) w x :=
      (h.sets w x hx).imp fun l₂ hl₂ _ _ => List.mem_append_left _ hl₂
    rcases hcases with ⟨-, rfl⟩ | ⟨-, rfl⟩ | ⟨-, rfl⟩
    · exact ⟨hset.content, hset.saves, hset.uses, hset.fresh⟩
    · exact ⟨nofun, hset.saves, hset.uses, nofun⟩
    · exact hset
  · intro l₂ hl₂
    rcases hlast hl₂ with hl₂ | rfl
    · apply (h.leases l₂ hl₂).imp
      exact fun w hholds => modified_unused fun hw => hfree hw hl₂ hholds
    · refine ⟨fun w _ hw => ?_, fun w _ hw => ?_, fun w i _ hw hi => ?_, fun w i _ hw hi => ?_,
        fun j hj => ?_, fun j _ hj => ?_⟩
      · obtain ⟨x, hx, -, hpos, hframe, hloaded, -⟩ := hload w hw
        exact ⟨{ x with busy := true }, by rw [modified_load hw (hparted w hw), hx]; rfl, hpos,
          hframe, hloaded⟩
      · obtain ⟨x, hx, -, hne, -⟩ := hsave w hw
        exact ⟨{ x with busy := true, frame := -1 }, by rw [modified_save hne hw, hx]; rfl, rfl⟩
      · obtain ⟨x, hx, -, -, -, -, hready⟩ := hload w hw
        exact hready i (((h.sets w x hx).saves i hi).resolve_right (hnoSaving (.inl hw)))
      · obtain ⟨x, hx, -, -, hready⟩ := hsave w hw
        apply hready i
        apply ((h.sets w x hx).uses i hi).resolve_right
        exact not_or.mpr ⟨hnoSaving (.inr hw), hnoLoading (.inr hw)⟩
      · exact absurd hheld hj.not_held
      · exact absurd hheld hj.not_held

/-- A request gives its sets back. -/
theorem Sound.giveBack {load save : WeightSet Q → WeightSet Q} (h : Sound c ops leases Ready)
    (hl : leases[k]? = some l) (hlive : l.Live) (hl' : ¬ l'.Live)
    (hparted : ∀ w, l'.load = some w → l'.save ≠ some w)
    (hc : c'.sets = ((c.modify l.load load).modify l.save save).sets)
    (hloadFree : ∀ x, (load x).busy = false) (hsaveFree : ∀ x, (save x).busy = false)
    (hload : ∀ w x, l.load = some w → c.sets[w]? = some x →
      SetSound ops (leases.set k l') w (load x))
    (hsave : ∀ w x, l.save = some w → c.sets[w]? = some x →
      SetSound ops (leases.set k l') w (save x)) :
    Sound c' ops (leases.set k l') Ready := by
  have hmem := List.mem_of_getElem? hl
  have hcases := fun w y (hy : c'.sets[w]? = some y) =>
    modified_cases (h.parted l hmem w) (hc ▸ hy)
  -- the sets of the others are not touched
  have hother : ∀ {l₂ w}, l₂ ∈ leases.set k l' → l₂.Holds w → l₂ ∈ leases ∧ ¬ l.Uses w := by
    intro l₂ w hl₂ hholds
    obtain ⟨j, hj⟩ := List.mem_iff_getElem?.mp hl₂
    rcases (Calls.getElem?_set_iff hl).mp hj with ⟨-, rfl⟩ | ⟨hne, hj⟩
    · exact absurd hholds.1 hl'
    · exact ⟨List.mem_of_getElem? hj, fun hw => hne (h.alone j k l₂ l w hj hl hholds ⟨hlive, hw⟩)⟩
  have hkeep : ∀ {l₂ w}, l₂ ∈ leases → l₂.Uses w → ¬ l.Uses w → l₂ ∈ leases.set k l' := by
    intro l₂ w hl₂ hw hunused
    apply Calls.mem_set_of_ne hl hl₂
    rintro rfl
    exact hunused hw
  constructor
  · refine ⟨h.loads, h.ordered, Calls.forall_set hparted h.parted,
      h.alone.set hl fun w hw => absurd hw.1 hl', fun w y hy hbusy => ?_⟩
    obtain ⟨x, hx, ⟨-, rfl⟩ | ⟨-, rfl⟩ | ⟨hunused, rfl⟩⟩ := hcases w y hy
    · rw [hloadFree] at hbusy
      cases hbusy
    · rw [hsaveFree] at hbusy
      cases hbusy
    · obtain ⟨l₂, hl₂, hholds⟩ := h.returned w y hx hbusy
      exact ⟨l₂, hkeep hl₂ hholds.2 hunused, hholds⟩
  · intro w y l₂ hy hl₂ hholds
    obtain ⟨hl₂, hunused⟩ := hother hl₂ hholds
    obtain ⟨x, hx, ⟨hw, -⟩ | ⟨hw, -⟩ | ⟨-, rfl⟩⟩ := hcases w y hy
    · exact absurd (.inl hw) hunused
    · exact absurd (.inr hw) hunused
    · exact h.busy w y l₂ hx hl₂ hholds
  · intro w y hy
    obtain ⟨x, hx, ⟨hw, rfl⟩ | ⟨hw, rfl⟩ | ⟨hunused, rfl⟩⟩ := hcases w y hy
    · exact hload w x hw hx
    · exact hsave w x hw hx
    · exact (h.sets w y hx).imp fun l₂ hl₂ hw _ => hkeep hl₂ hw hunused
  · intro l₂ hl₂
    rcases List.mem_or_eq_of_mem_set hl₂ with hold | rfl
    · apply (h.leases l₂ hold).imp
      intro w hholds
      rw [hc]
      exact modified_unused (hother hl₂ hholds).2
    · exact .of_not_live hl'

/-- A request that holds nothing moves on. -/
theorem Sound.retire (h : Sound c ops leases Ready) (hl : leases[k]? = some l) (hdone : ¬ l.Live)
    (hl' : ¬ l'.Live) (hparted : ∀ w, l'.load = some w → l'.save ≠ some w) :
    Sound c ops (leases.set k l') Ready := by
  have hkeep : ∀ {l₂}, l₂ ∈ leases → l₂.Live → l₂ ∈ leases.set k l' := by
    intro l₂ hl₂ hlive
    apply Calls.mem_set_of_ne hl hl₂
    rintro rfl
    exact hdone hlive
  constructor
  · refine ⟨h.loads, h.ordered, Calls.forall_set hparted h.parted,
      h.alone.set hl fun w hw => absurd hw.1 hl', fun w x hx hbusy => ?_⟩
    obtain ⟨l₂, hl₂, hholds⟩ := h.returned w x hx hbusy
    exact ⟨l₂, hkeep hl₂ hholds.1, hholds⟩
  · intro w x l₂ hx hl₂ hholds
    rcases List.mem_or_eq_of_mem_set hl₂ with hl₂ | rfl
    · exact h.busy w x l₂ hx hl₂ hholds
    · exact absurd hholds.1 hl'
  · exact fun w x hx => (h.sets w x hx).imp fun l₂ hl₂ _ hj => hkeep hl₂ (.inr hj)
  · exact Calls.forall_set (.of_not_live hl') h.leases

/-- Who holds a set of a lease is that lease. -/
theorem Sound.holder {l₂ : WeightLease Q} {w : Nat} (h : Sound c ops leases Ready)
    (hl : leases[k]? = some l) (hholds : l.Holds w) (hl₂ : l₂ ∈ leases) (hholds₂ : l₂.Holds w) :
    l₂ = l := by
  obtain ⟨j, hj⟩ := List.mem_iff_getElem?.mp hl₂
  obtain rfl := h.alone j k l₂ l w hj hl hholds₂ hholds
  exact Option.some.inj (hj.symm.trans hl)

/-- What used the set that a lease saves is behind a point that is behind its kernel `j`. -/
theorem Sound.behind_saved {p : Option (Point Q)} {i j w : Nat} (h : Sound c ops leases Ready)
    (hl : l ∈ leases) (hj : l.Launched j) (hw : l.save = some w) (hp : Behind ops p j)
    (hi : UsesAt ops w i) : Behind ops p i := by
  obtain ⟨-, hall⟩ := (h.leases l hl).saved j w hj hw
  rcases hall i hi with rfl | hbefore
  · exact hp
  · obtain ⟨q, hq, hreach⟩ := hp
    exact ⟨q, hq, hreach.of_before hbefore⟩

/-- A completed lease: the points it leaves are behind its kernel `j`. -/
theorem Sound.complete {p p' : Option (Point Q)} {j t : Nat} (h : Sound c ops leases Ready)
    (hl : leases[k]? = some l) (hj : l.phase = .queued j) (hp : Behind ops p j)
    (hp' : Behind ops p' j)
    (hc : c'.sets = ((c.modify l.load fun x => { x with read := p, loaded := true, busy := false
      }).modify l.save fun x => { x with written := p', frame := l.n, loaded := false, used := t, busy := false
      }).sets) :
    Sound c' ops (leases.set k { l with load := none, save := none, phase := .completed })
      Ready := by
  have hmem := List.mem_of_getElem? hl
  have hlive : l.Live := .inr ⟨j, .inl hj⟩
  have hlease := h.leases l hmem
  refine h.giveBack hl hlive (by rintro (h | ⟨_, h | h⟩) <;> cases h) nofun hc (fun _ => rfl)
    (fun _ => rfl) (fun w x hw hx => ?_) (fun w x hw hx => ?_)
  · have hset := h.sets w x hx
    obtain ⟨x', hx', hpos, -, hloaded⟩ := hlease.load w hlive hw
    obtain rfl := Option.some.inj (hx.symm.trans hx')
    refine ⟨hset.content, fun i hi => .inl ((hset.saves i hi).resolve_right ?_), fun i hi => ?_,
      nofun⟩
    · rintro ⟨l₂, hl₂, hsave, j₂, hj₂, -⟩
      obtain rfl := h.holder hl ⟨hlive, .inl hw⟩ hl₂ ⟨.inr ⟨j₂, hj₂⟩, .inr hsave⟩
      exact h.parted l₂ hl₂ w hw hsave
    · rcases hset.fresh hpos hloaded i hi with hwritten | ⟨l₂, hl₂, hload, hi₂⟩
      · exact .inl (.inl hwritten)
      · obtain rfl := h.holder hl ⟨hlive, .inl hw⟩ hl₂ ⟨.inr ⟨i, hi₂⟩, .inl hload⟩
        obtain rfl := hi₂.unique (.inl hj)
        exact .inl (.inr hp)
  · obtain ⟨hlatest, -⟩ := hlease.saved j w (.inl hj) hw
    have hbehind : ∀ i, UsesAt ops w i → Behind ops p' i :=
      fun i hi => h.behind_saved hmem (.inl hj) hw hp' hi
    exact ⟨fun _ => ⟨j, _, hlatest, hlease.kernel j (.inl hj), rfl⟩,
      fun i hi => .inl (hbehind i hi.uses), fun i hi => .inl (.inl (hbehind i hi)),
      fun _ _ i hi => .inl (hbehind i hi)⟩

/-- An exception after the kernel. -/
theorem Sound.thrown {j : Nat} (h : Sound c ops leases Ready) (hl : leases[k]? = some l)
    (hj : l.phase = .queued j) :
    Sound c ops (leases.set k { l with phase := .thrown j }) Ready := by
  have hmem := List.mem_of_getElem? hl
  have hlive : l.Live := .inr ⟨j, .inl hj⟩
  have hlease := h.leases l hmem
  have hself : ({ l with phase := .thrown j } : WeightLease Q) ∈
      leases.set k { l with phase := .thrown j } := Calls.mem_set hl
  have hlaunched : ∀ {i}, l.Launched i → ({ l with phase := .thrown j } : WeightLease Q).Launched i :=
    fun hi => .inr (congrArg LeasePhase.thrown (hi.unique (.inl hj)).symm)
  have hback : ∀ {i}, ({ l with phase := .thrown j } : WeightLease Q).Launched i → l.Launched i :=
    fun hi => hi.unique (.inr rfl) ▸ .inl hj
  constructor
  · refine ⟨h.loads, h.ordered, Calls.forall_set (h.parted l hmem) h.parted,
      h.alone.set hl fun w hw => ⟨hlive, hw.2⟩, fun w x hx hbusy => ?_⟩
    obtain ⟨l₂, hl₂, hw⟩ := h.returned w x hx hbusy
    by_cases heq : l₂ = l
    · subst heq
      exact ⟨_, hself, .inr ⟨j, .inr rfl⟩, hw.2⟩
    · exact ⟨l₂, Calls.mem_set_of_ne hl hl₂ heq, hw⟩
  · intro w x l₂ hx hl₂ hw
    rcases List.mem_or_eq_of_mem_set hl₂ with hl₂ | rfl
    · exact h.busy w x l₂ hx hl₂ hw
    · exact h.busy w x l hx hmem ⟨hlive, hw.2⟩
  · intro w x hx
    apply (h.sets w x hx).mono
    · rintro i ⟨l₂, hl₂, hw, j₂, hj₂, hij⟩
      by_cases heq : l₂ = l
      · subst heq
        exact ⟨_, hself, hw, j₂, hlaunched hj₂, hij⟩
      · exact ⟨l₂, Calls.mem_set_of_ne hl hl₂ heq, hw, j₂, hj₂, hij⟩
    · rintro i ⟨l₂, hl₂, hw, hi⟩
      by_cases heq : l₂ = l
      · subst heq
        exact ⟨_, hself, hw, hlaunched hi⟩
      · exact ⟨l₂, Calls.mem_set_of_ne hl hl₂ heq, hw, hi⟩
  · refine Calls.forall_set ?_ h.leases
    exact ⟨fun w _ => hlease.load w hlive, fun w _ => hlease.save w hlive, nofun, nofun,
      fun i hi => hlease.kernel i (hback hi), fun i w hi => hlease.saved i w (hback hi)⟩

/-- A lease that goes after its kernel, which loads nothing: the set holds no maps, but what has
used it stays behind its points. -/
theorem Sound.abandon {read written : WeightSet Q → Option (Point Q)} {j : Nat}
    (h : Sound c ops leases Ready) (hl : leases[k]? = some l) (hj : l.Launched j)
    (hload : l.load = none) (hl' : ¬ l'.Live)
    (hparted : ∀ w, l'.load = some w → l'.save ≠ some w)
    (hc : c'.sets = ((c.modify l.load fun x => { x with read := read x, busy := false }).modify
      l.save fun x => { x with written := written x, busy := false }).sets)
    (hwritten : ∀ w x, l.save = some w → Behind ops (written x) j) :
    Sound c' ops (leases.set k l') Ready := by
  have hmem := List.mem_of_getElem? hl
  have hlive : l.Live := .inr ⟨j, hj⟩
  refine h.giveBack hl hlive hl' hparted hc (fun _ => rfl) (fun _ => rfl) (fun w x hw hx => ?_)
    (fun w x hw hx => ?_)
  · rw [hload] at hw
    cases hw
  · obtain ⟨x', hx', hnone⟩ := (h.leases l hmem).save w hlive hw
    obtain rfl := Option.some.inj (hx.symm.trans hx')
    have hempty : ¬ 0 ≤ x.frame := by omega
    have hbehind : ∀ i, UsesAt ops w i → Behind ops (written x) i :=
      fun i hi => h.behind_saved hmem hj hw (hwritten w x hw) hi
    exact ⟨fun hframe => absurd hframe hempty, fun i hi => .inl (hbehind i hi.uses),
      fun i hi => .inl (.inl (hbehind i hi)), fun hframe => absurd hframe hempty⟩

/-- A lease that goes without a kernel: what used the set it was to save stays behind the
points of the set. -/
theorem Sound.drop {read written : WeightSet Q → Option (Point Q)} (h : Sound c ops leases Ready)
    (hl : leases[k]? = some l) (hheld : l.phase = .held) (hl' : ¬ l'.Live)
    (hparted : ∀ w, l'.load = some w → l'.save ≠ some w)
    (hc : c'.sets = ((c.modify l.load fun x => { x with read := read x, busy := false }).modify
      l.save fun x => { x with written := written x, busy := false }).sets)
    (hwritten : ∀ w x i, l.save = some w → UsesAt ops w i → Behind ops x.written i →
      Behind ops (written x) i) :
    Sound c' ops (leases.set k l') Ready := by
  have hmem := List.mem_of_getElem? hl
  have hlive : l.Live := .inl hheld
  have hlease := h.leases l hmem
  have hnoSaving : ∀ {w i}, l.Uses w → ¬ Saving ops leases w i := by
    rintro w i hw ⟨l₂, hl₂, hsave, j, hj, -⟩
    obtain rfl := h.holder hl ⟨hlive, hw⟩ hl₂ ⟨.inr ⟨j, hj⟩, .inr hsave⟩
    exact hj.not_held hheld
  have hnoLoading : ∀ {w i}, l.Uses w → ¬ Loading leases w i := by
    rintro w i hw ⟨l₂, hl₂, hload, hj⟩
    obtain rfl := h.holder hl ⟨hlive, hw⟩ hl₂ ⟨.inr ⟨i, hj⟩, .inl hload⟩
    exact hj.not_held hheld
  refine h.giveBack hl hlive hl' hparted hc (fun _ => rfl) (fun _ => rfl) (fun w x hw hx => ?_)
    (fun w x hw hx => ?_)
  · have hset := h.sets w x hx
    obtain ⟨x', hx', hpos, -, hloaded⟩ := hlease.load w hlive hw
    obtain rfl := Option.some.inj (hx.symm.trans hx')
    have hfresh : ∀ i, UsesAt ops w i → Behind ops x.written i := fun i hi =>
      (hset.fresh hpos hloaded i hi).resolve_right (hnoLoading (.inl hw))
    exact ⟨hset.content, fun i hi => .inl (hfresh i hi.uses),
      fun i hi => .inl (.inl (hfresh i hi)), fun _ _ i hi => .inl (hfresh i hi)⟩
  · have hset := h.sets w x hx
    obtain ⟨x', hx', hnone⟩ := hlease.save w hlive hw
    obtain rfl := Option.some.inj (hx.symm.trans hx')
    have hempty : ¬ 0 ≤ x.frame := by omega
    refine ⟨fun hframe => absurd hframe hempty, fun i hi => .inl ?_, fun i hi => .inl ?_,
      fun hframe => absurd hframe hempty⟩
    · exact hwritten w x i hw hi.uses ((hset.saves i hi).resolve_right (hnoSaving (.inr hw)))
    · apply ((hset.uses i hi).resolve_right _).imp_left (hwritten w x i hw hi)
      exact not_or.mpr ⟨hnoSaving (.inr hw), hnoLoading (.inr hw)⟩

end Steps

/-! ## The constructor -/

section Constructor

variable {D : Type*} {wait : LeaseWait → Option (Point Q) → D → Bool × D} {c : WeightCache Q}
  {d d' : D} {n : Nat} {q : Q} {ops more : KernelOps Q} {leases : List (WeightLease Q)}
  {Ready Ready' : Q → Nat → Prop}

/-- What a constructor that returns has waited for. -/
def leasePoints (c : WeightCache Q) (n : Nat) : List (LeaseWait × Option (Point Q)) :=
  let load := c.pickLoad n
  let save := c.pickSave load
  load.toList.map (fun _ => (LeaseWait.load, c.point load (·.written))) ++ save.toList.flatMap fun _ =>
    [(LeaseWait.written, c.point save (·.written)), (LeaseWait.read, c.point save (·.read))]

theorem waitAll_append {l l' : List (LeaseWait × Option (Point Q))} :
    waitAll wait (l ++ l') d = match waitAll wait l d with
      | (true, d) => waitAll wait l' d
      | (false, d) => (false, d) := by
  induction l generalizing d with
  | nil => rfl
  | cons p l ih =>
    simp only [List.cons_append, waitAll]
    cases wait p.1 p.2 d with
    | mk ok d => cases ok with
      | true => exact ih
      | false => rfl

/-- What each wait establishes, in turn. -/
theorem waitAll_run {P : List (LeaseWait × Option (Point Q)) → D → Prop}
    {done l : List (LeaseWait × Option (Point Q))} (start : P done d)
    (step : ∀ done which p d d', P done d → wait which p d = (true, d') →
      P (done ++ [(which, p)]) d')
    (h : waitAll wait l d = (true, d')) : P (done ++ l) d' := by
  induction l generalizing d done with
  | nil =>
    cases h
    rw [List.append_nil]
    exact start
  | cons p l ih =>
    rw [waitAll] at h
    cases hw : wait p.1 p.2 d with
    | mk ok d₁ =>
      rw [hw] at h
      cases ok with
      | true =>
        have hrest := ih (step done p.1 p.2 d d₁ start hw) h
        rwa [List.append_assoc] at hrest
      | false => cases h

/-- The points do not change while the sets are marked. -/
theorem point_modify {set set' : Option Nat} {f : WeightSet Q → WeightSet Q}
    {g : WeightSet Q → Option (Point Q)} (hg : ∀ x, g (f x) = g x) :
    (c.modify set f).point set' g = c.point set' g := by
  cases set' with
  | none => rfl
  | some w =>
    change (c.modify set f).sets[w]?.bind g = c.sets[w]?.bind g
    rw [WeightCache.getElem?_modify]
    cases c.sets[w]? with
    | none => rfl
    | some x =>
      simp only [Option.map_some, Option.bind_some]
      split
      · exact hg x
      · rfl

theorem construct_returned (h : (WeightLease.construct wait c d n q).returned = true) :
    ∃ d', waitAll wait (leasePoints c n) d = (true, d') ∧
      WeightLease.construct wait c d n q =
        ⟨(c.modify (c.pickLoad n) fun x => { x with busy := true }).modify
            (c.pickSave (c.pickLoad n)) fun x => { x with busy := true, frame := -1 },
          d', ⟨n, q, c.pickLoad n, c.pickSave (c.pickLoad n), .held⟩, true⟩ := by
  unfold WeightLease.construct at h ⊢
  rw [leasePoints, waitAll_append]
  dsimp only at h ⊢
  generalize c.pickLoad n = load at h ⊢
  generalize c.pickSave load = save at h ⊢
  have hload : (c.modify load fun x => { x with busy := true }).point load (·.written) =
      c.point load (·.written) := point_modify fun _ => rfl
  have hsave : ∀ g : WeightSet Q → Option (Point Q),
      (∀ x, g { x with busy := true } = g x) → (∀ x, g { x with busy := true, frame := -1 } = g x) →
      ((c.modify load fun x => { x with busy := true }).modify save
        fun x => { x with busy := true, frame := -1 }).point save g = c.point save g :=
    fun g hg hg' => (point_modify hg').trans (point_modify hg)
  rw [hload, hsave _ (fun _ => rfl) (fun _ => rfl), hsave _ (fun _ => rfl) (fun _ => rfl)] at h ⊢
  split at h
  · cases h
  · next d₁ hfirst =>
    simp only [hfirst] at h ⊢
    split at h
    · cases h
    · next d₂ hlast =>
      rw [hlast]
      exact ⟨d₂, rfl, rfl⟩

/-- A lease that is constructed. -/
theorem Sound.take (h : Sound c ops leases Ready)
    (hreturned : (WeightLease.construct wait c d n q).returned = true)
    (hmore : ∀ a ∈ more, a.act = none)
    (hready : ∀ l ∈ leases, l.phase = .held → ∀ i, i < ops.length → Ready l.queue i →
      Ready' l.queue i)
    (hpoints : ∀ p ∈ leasePoints c n, ∀ i, Behind ops p.2 i → Ready' q i) :
    Sound (WeightLease.construct wait c d n q).cache (ops ++ more)
      (leases ++ [(WeightLease.construct wait c d n q).lease]) Ready' := by
  obtain ⟨d', -, hconstruct⟩ := construct_returned hreturned
  have hstart : Sound c (ops ++ []) leases fun q i => i < ops.length → Ready' q i :=
    h.idle nofun fun l hl hheld i hi hr _ => hready l hl hheld i hi hr
  rw [List.append_nil] at hstart
  have hat : ∀ {which p i}, (which, p) ∈ leasePoints c n → Behind ops p i → Ready' q i :=
    fun hp hi => hpoints _ hp _ hi
  rw [hconstruct]
  refine (hstart.enter (l := ⟨n, q, c.pickLoad n, c.pickSave (c.pickLoad n), .held⟩) rfl ?_ ?_).idle
    hmore fun _ _ _ i hi hr => hr hi
  · intro w hw
    change c.pickLoad n = some w at hw
    obtain ⟨x, hx, hpos, hframe, hbusy, hloaded⟩ := pickLoad_spec hw
    have hp : (LeaseWait.load, x.written) ∈ leasePoints c n := by
      simp [leasePoints, hw, WeightCache.point, hx]
    refine ⟨x, hx, hbusy, by omega, ?_, hloaded, fun i hi _ => hat hp hi⟩
    change x.frame + 1 = (n : Int)
    omega
  · intro w hw
    change c.pickSave (c.pickLoad n) = some w at hw
    obtain ⟨x, hx, hbusy, hne⟩ := pickSave_spec hw
    have hp : (LeaseWait.written, x.written) ∈ leasePoints c n ∧
        (LeaseWait.read, x.read) ∈ leasePoints c n := by
      simp [leasePoints, hw, WeightCache.point, hx]
    refine ⟨x, hx, hbusy, hne, fun i hi _ => ?_⟩
    exact hi.elim (hat hp.1) (hat hp.2)

end Constructor

end NssFactory.Gpu

import Mathlib.Data.Finset.Basic
import Mathlib.Data.List.Dedup
import NssFactory.Lib.Calls
import NssFactory.Lib.Steps

/-!
# The chunk stores of the CUDA BM4D filter

`cuda/bm4d/filter.cpp`: requests and prefetch threads compute chunks into stores, publish them
in a cache of two, and drop the oldest chunk no hit reads. A store dropped while nothing else
holds it goes to `spare` and is taken again. A step of the model is a critical section of `mu`,
or what a thread does between two of them; a thread that waits has no step. What only delays
a thread (its slot, the order of the tiles, the device) is left out.

* `step_turn`: what a step does to the chunks and to their stores.
* `Owned.turn`: every step leaves each store in the cache, in `spare` or with the one thread that
  computed it.
-/

namespace NssFactory.Cuda.Bm4d

def kBm4dChunk : Nat := 32
def kCacheLimit : Nat := 2
def kPrefetchers : Nat := 2
def kComputers : Nat := 2
def kOutputs : Nat := 8

/-- The chunk holding frame `n`. -/
def chunkFirst (n : Nat) : Nat := n - n % kBm4dChunk

def chunks (numFrames : Nat) : Nat := (numFrames + kBm4dChunk - 1) / kBm4dChunk

/-- `stores` of the memory plan in `create`. -/
def plannedStores (numFrames : Nat) : Nat :=
  min (kCacheLimit + kPrefetchers + kComputers) (chunks numFrames)

/-- An entry of the cache. `store` stands for the address of its store, which no other entry
has; `first` is the field of the store. -/
structure Entry where
  store : Nat
  first : Nat
  readers : Nat
deriving DecidableEq

inductive Role where
  | request
  | prefetch
deriving DecidableEq

/-- Where a thread is. A request with the next chunk's frames is `ahead`: it reserves a
prefetch thread, claims the next chunk and starts the thread (`gathering`), or gives the claim
(`unstarted`) and the reservation (`returning`) back. It then looks its chunk up. One that
computes it, as a prefetch thread does, goes from `starting` to `evicting`, the loop of
`finish_chunk`, with the store it still holds. A request with its chunk is `holding`,
`copying` and `copied`; `leaving` is what is left when it no longer holds the store: a hit's
entry or the compute permit. -/
inductive Stage where
  | ahead
  | reserved
  | gathering
  | unstarted
  | returning
  | lookup
  | claimed
  | starting
  | allocating
  | filling (store : Nat)
  | failing
  | evicting (store : Option Nat)
  | holding (hit : Bool) (store : Nat)
  | copying (hit : Bool) (store : Nat)
  | copied (hit : Bool) (store : Nat)
  | leaving (entry : Option Nat)
  | ended
deriving DecidableEq

structure Thread where
  role : Role
  first : Nat
  stage : Stage
deriving DecidableEq

namespace Thread

variable (t : Thread)

/-- The first frame of the chunk after its own. -/
def next : Nat := t.first + kBm4dChunk

/-- The store a thread holds that computed it: the cache may drop the chunk meanwhile. -/
def own : Option Nat :=
  match t.stage with
  | .filling store | .holding false store | .copying false store | .copied false store => some store
  | .evicting store => store
  | _ => none

/-- The store a thread fills. -/
def fill : Option Nat :=
  match t.stage with
  | .filling store => some store
  | _ => none

/-- The store whose entry counts the thread as a reader. -/
def reads : Option Nat :=
  match t.stage with
  | .holding true store | .copying true store | .copied true store => some store
  | .leaving entry => entry
  | _ => none

/-- The store a thread has a reference to. -/
def holds : Option Nat :=
  match t.stage with
  | .filling store | .holding _ store | .copying _ store | .copied _ store => some store
  | .evicting store => store
  | _ => none

/-- A thread that found `spare` empty and has not allocated yet. -/
def allocates : Bool := t.stage = .allocating

/-- A thread in the loop of `finish_chunk`, after its computation. -/
def evicts : Bool :=
  match t.stage with
  | .evicting _ => true
  | _ => false

/-- The chunk of a thread in `computing`. -/
def claim : Option Nat :=
  match t.stage with
  | .gathering => some t.next
  | .claimed | .starting | .allocating | .filling _ | .failing => some t.first
  | _ => none

/-- A request that asked for the next chunk's frames and has not started its thread. -/
def early : Bool :=
  match t.stage with
  | .ahead | .reserved | .gathering => true
  | _ => false

/-- The request holds a compute permit. -/
def computes : Bool :=
  match t.role, t.stage with
  | .request, .starting | .request, .allocating | .request, .filling _ | .request, .failing
  | .request, .evicting _ | .request, .holding false _ | .request, .copying false _
  | .request, .copied false _ | .request, .leaving none => true
  | _, _ => false

/-- The request holds an output permit. -/
def outputs : Bool :=
  match t.stage with
  | .copying _ _ => true
  | _ => false

/-- The thread counts in `prefetching`: it is a prefetch thread, or reserved one. -/
def prefetches : Bool :=
  match t.role, t.stage with
  | .request, .reserved | .request, .gathering | .request, .unstarted | .request, .returning => true
  | .prefetch, .ended => false
  | .prefetch, _ => true
  | _, _ => false

end Thread

/-- The members of `Bm4dData` about chunks, and the threads. The last element pushed to `spare`
is its first here, the next new store is `fresh`. -/
structure State where
  cache : List Entry
  computing : Finset Nat
  spare : List Nat
  fresh : Nat
  prefetching : Nat
  threads : List Thread

inductive Event where
  | request (n : Nat)
  | go (i : Nat)
  | fail (i : Nat)
  | refuse (i : Nat)

namespace State

def init : State := ⟨[], ∅, [], 0, 0, []⟩

variable (s : State)

/-- The stores in the cache. -/
def stores : List Nat := s.cache.map (·.store)

def find (first : Nat) : Option Entry := s.cache.find? fun e => e.first = first

def chunkKnown (first : Nat) : Prop := (s.find first).isSome ∨ first ∈ s.computing

instance (first : Nat) : Decidable (s.chunkKnown first) := inferInstanceAs (Decidable (_ ∨ _))

def claimChunk (first : Nat) : State := { s with computing := insert first s.computing }

def unclaim (first : Nat) : State := { s with computing := s.computing.erase first }

/-- The first section of `finish_chunk`, for a chunk that was computed. -/
def publish (first store : Nat) : State :=
  { s.unclaim first with cache := ⟨store, first, 0⟩ :: s.cache }

/-- The oldest chunk no hit reads, behind the newest one. -/
def victim : Option Entry := (s.cache.tail.filter fun e => e.readers = 0).getLast?

/-- The victim goes; its store is kept for reuse when no thread holds it. -/
def evict (v : Entry) : State :=
  { s with
    cache := s.cache.filter fun e => e.store ≠ v.store
    spare := if s.threads.any fun t => t.holds = some v.store then s.spare else v.store :: s.spare }

/-- The loop of `finish_chunk`, up to where it ends or waits for a hit to let go. Each round
drops an entry, so the number of entries is fuel enough. -/
def trimLoop : Nat → State → State
  | 0, s => s
  | fuel + 1, s =>
    if s.cache.length ≤ kCacheLimit then s
    else
      match s.victim with
      | none => s
      | some v => trimLoop fuel (s.evict v)

def trim : State := s.trimLoop s.cache.length

def hit (e : Entry) : State :=
  { s with cache := { e with readers := e.readers + 1 } :: s.cache.filter fun f => f.store ≠ e.store }

/-- A hit lets go of its entry. -/
def unread (store : Nat) : State :=
  { s with
    cache := s.cache.map fun e => if e.store = store then { e with readers := e.readers - 1 } else e }

def setStage (i : Nat) (t : Thread) (stage : Stage) : State :=
  { s with threads := s.threads.set i { t with stage := stage } }

def join (t : Thread) : State := { s with threads := s.threads ++ [t] }

/-- What `finish_chunk` is followed by: a request goes on with its store, or with its error. -/
def afterFinish : Role → Option Nat → Stage
  | .prefetch, _ => .returning
  | .request, some store => .holding false store
  | .request, none => .leaving none

/-- The next step of thread `i`, when nothing throws. -/
def go (i : Nat) (t : Thread) : Option State :=
  match t.stage with
  | .ahead =>
    if s.prefetching < kPrefetchers then
      some { s.setStage i t .reserved with prefetching := s.prefetching + 1 }
    else some (s.setStage i t .lookup)
  | .reserved =>
    if s.chunkKnown t.next then some (s.setStage i t .returning)
    else some ((s.claimChunk t.next).setStage i t .gathering)
  | .gathering => some ((s.setStage i t .lookup).join ⟨.prefetch, t.next, .starting⟩)
  | .unstarted =>
    some (s.trim.setStage i t (if s.trim.cache.length ≤ kCacheLimit then .returning else .unstarted))
  | .returning =>
    some { s.setStage i t (if t.role = .request then .lookup else .ended) with
      prefetching := s.prefetching - 1 }
  | .lookup =>
    match s.find t.first with
    | some e => some ((s.hit e).setStage i t (.holding true e.store))
    | none =>
      if t.first ∈ s.computing then none
      else some ((s.claimChunk t.first).setStage i t .claimed)
  | .claimed =>
    if s.threads.countP Thread.computes < kComputers then some (s.setStage i t .starting) else none
  | .starting =>
    match s.spare with
    | [] => some (s.setStage i t .allocating)
    | store :: rest => some ({ s with spare := rest }.setStage i t (.filling store))
  | .allocating => some ({ s with fresh := s.fresh + 1 }.setStage i t (.filling s.fresh))
  | .filling store =>
    some ((s.publish t.first store).setStage i t
      (.evicting (if t.role = .request then some store else none)))
  | .failing => some ((s.unclaim t.first).setStage i t (.evicting none))
  | .evicting store =>
    some (s.trim.setStage i t
      (if s.trim.cache.length ≤ kCacheLimit then afterFinish t.role store else .evicting store))
  | .holding hit store =>
    if s.threads.countP Thread.outputs < kOutputs then some (s.setStage i t (.copying hit store))
    else none
  | .copying hit store => some (s.setStage i t (.copied hit store))
  | .copied hit store => some (s.setStage i t (.leaving (if hit then some store else none)))
  | .leaving none => some (s.setStage i t .ended)
  | .leaving (some store) => some ((s.unread store).setStage i t .ended)
  | .ended => none

/-- An exception in thread `i`. One of a request that has claimed the next chunk, or reserved
its thread, leaves them as they are. -/
def fail (i : Nat) (t : Thread) : Option State :=
  match t.stage with
  | .ahead | .reserved | .gathering | .unstarted | .lookup => some (s.setStage i t .ended)
  | .starting | .allocating | .filling _ => some (s.setStage i t .failing)
  | .copying hit store => some (s.setStage i t (.copied hit store))
  | _ => none

/-- The prefetch thread of request `i` cannot be started. -/
def refuse (i : Nat) (t : Thread) : Option State :=
  match t.stage with
  | .gathering => some ((s.unclaim t.next).setStage i t .unstarted)
  | _ => none

/-- A request for frame `n`. Past the first quarter of its chunk it asks for the next chunk's
frames too, while that chunk is neither cached nor claimed. -/
def request (numFrames n : Nat) : Option State :=
  if n < numFrames then
    if kBm4dChunk / 4 ≤ n - chunkFirst n ∧ chunkFirst n + kBm4dChunk < numFrames ∧
        ¬ s.chunkKnown (chunkFirst n + kBm4dChunk) then
      some (s.join ⟨.request, chunkFirst n, .ahead⟩)
    else some (s.join ⟨.request, chunkFirst n, .lookup⟩)
  else none

def step (numFrames : Nat) : Event → Option State
  | .request n => s.request numFrames n
  | .go i => s.threads[i]?.bind (s.go i)
  | .fail i => s.threads[i]?.bind (s.fail i)
  | .refuse i => s.threads[i]?.bind (s.refuse i)

/-- The stores alive: in the cache, in `spare`, or held by a thread. -/
def alive : Nat := (s.stores ++ s.spare ++ s.threads.filterMap Thread.holds).dedup.length

/-- The chunk that a step claims. -/
def claims : Event → Option Nat
  | .go i =>
    match s.threads[i]? with
    | some ⟨role, first, .reserved⟩ =>
      if s.chunkKnown (Thread.next ⟨role, first, .reserved⟩) then none
      else some (Thread.next ⟨role, first, .reserved⟩)
    | some ⟨_, first, .lookup⟩ => if s.chunkKnown first then none else some first
    | _ => none
  | _ => none

/-- A step claims a chunk of which a thread still holds a store. The chunk being neither cached
nor claimed, this is one that the cache dropped. -/
def recomputes (e : Event) : Prop :=
  ∃ first ∈ s.claims e, ∃ t ∈ s.threads, t.first = first ∧ t.own.isSome

instance (e : Event) : Decidable (s.recomputes e) := by
  unfold recomputes
  infer_instance

end State

/-! ## Who holds a store -/

/-- The first frame of a chunk of the clip. -/
structure IsStart (numFrames first : Nat) : Prop where
  mod_eq : first % kBm4dChunk = 0
  lt : first < numFrames

/-- `t'` holds no more than `t` does, of the same chunk. -/
structure Less (t' t : Thread) : Prop where
  first : t'.first = t.first
  early : t'.early = false ∨ t.early = true
  own : ∀ st, t'.own = some st → t.own = some st
  fill : ∀ st, t'.fill = some st → t.fill = some st
  allocates : t'.allocates = true → t.allocates = true
  reads : t'.reads = t.reads

/-- A thread that has just come. -/
structure Blank (t : Thread) : Prop where
  own : t.own = none
  fill : t.fill = none
  allocates : t.allocates = false
  reads : t.reads = none
  evicts : t.evicts = false

/-- A store is in the cache, in `spare` or with the one thread that computed it; the last may
also be in the cache. A hit reads a store of the cache, and its entry counts it. -/
structure Owned (s : State) : Prop where
  nodup : (s.stores ++ s.spare).Nodup
  old : ∀ st ∈ s.stores ++ s.spare, st < s.fresh
  owned : ∀ t ∈ s.threads, ∀ st, t.own = some st → st < s.fresh ∧ st ∉ s.spare
  alone : Calls.Alone Thread.own s.threads
  filled : ∀ t ∈ s.threads, ∀ st, t.fill = some st → st ∉ s.stores
  read : ∀ t ∈ s.threads, ∀ st, t.reads = some st → st ∈ s.stores
  readers : ∀ e ∈ s.cache, e.readers = s.threads.countP fun t => t.reads = some e.store

section Owned

variable {s s' : State} {i : Nat} {t t' : Thread} {e v : Entry} {st : Nat} {k : Option Nat}

theorem own_of_fill (h : t.fill = some st) : t.own = some st := by
  obtain ⟨role, first, stage⟩ := t
  cases stage <;> simp_all [Thread.fill, Thread.own]

theorem holds_of_own (h : t.own = some st) : t.holds = some st := by
  obtain ⟨role, first, stage⟩ := t
  cases stage with
  | holding hit store | copying hit store | copied hit store =>
    cases hit <;> simp_all [Thread.own, Thread.holds]
  | _ => simp_all [Thread.own, Thread.holds]

/-- What a thread holds it computed, or reads as a hit. -/
theorem own_or_reads (h : t.holds = some st) : t.own = some st ∨ t.reads = some st := by
  obtain ⟨role, first, stage⟩ := t
  cases stage with
  | holding hit store | copying hit store | copied hit store =>
    cases hit <;> simp_all [Thread.own, Thread.holds, Thread.reads]
  | _ => simp_all [Thread.own, Thread.holds, Thread.reads]

theorem mem_stores : st ∈ s.stores ↔ ∃ e ∈ s.cache, e.store = st := by
  simp [State.stores]

theorem Owned.init : Owned State.init := by
  constructor <;> simp [State.init, State.stores, Calls.Alone]

theorem countP_reads_set (ht : s.threads[i]? = some t) (hreads : t'.reads = t.reads) (st : Nat) :
    ((s.threads.set i t').countP fun u => u.reads = some st) = s.threads.countP fun u => u.reads = some st :=
  Calls.countP_set_same ht (by rw [hreads])

theorem Owned.set (h : Owned s) (ht : s.threads[i]? = some t) (hown : ∀ st, t'.own = some st → t.own = some st)
    (hfill : ∀ st, t'.fill = some st → t.fill = some st) (hreads : t'.reads = t.reads) (p : Nat) (c : Finset Nat) :
    Owned { s with threads := s.threads.set i t', prefetching := p, computing := c } := by
  have hmem := List.mem_of_getElem? ht
  constructor
  · exact h.nodup
  · exact h.old
  · exact Calls.forall_set (fun st hst => h.owned t hmem st (hown st hst)) h.owned
  · exact h.alone.same ht hown
  · exact Calls.forall_set (fun st hst => h.filled t hmem st (hfill st hst)) h.filled
  · exact Calls.forall_set (fun st hst => h.read t hmem st (hreads ▸ hst)) h.read
  · exact fun e he => (h.readers e he).trans (countP_reads_set ht hreads _).symm

theorem Owned.keep (h : Owned s) (ht : s.threads[i]? = some t) (hless : Less t' t) (p : Nat) (c : Finset Nat) :
    Owned { s with threads := s.threads.set i t', prefetching := p, computing := c } :=
  h.set ht hless.own hless.fill hless.reads p c

theorem Owned.join (h : Owned s) (ht : Blank t) : Owned (s.join t) := by
  have happ : ∀ {P : Thread → Prop}, P t → (∀ u ∈ s.threads, P u) → ∀ u ∈ s.threads ++ [t], P u := by
    intro P hP hall u hu
    rcases List.mem_append.mp hu with hu | hu
    · exact hall u hu
    · rw [List.mem_singleton.mp hu]
      exact hP
  constructor
  · exact h.nodup
  · exact h.old
  · exact happ (by simp [ht.own]) h.owned
  · exact h.alone.snoc ht.own
  · exact happ (by simp [ht.fill]) h.filled
  · exact happ (by simp [ht.reads]) h.read
  · intro e he
    simp only [State.join, List.countP_append, List.countP_singleton, ht.reads, reduceCtorEq, decide_false,
      Bool.false_eq_true, if_false, Nat.add_zero]
    exact h.readers e he

/-- Thread `i` takes a store that nobody holds. -/
theorem Owned.takes (h : Owned s) (ht : s.threads[i]? = some t) (hreads : t.reads = none) {spare : List Nat}
    {fresh : Nat} (hspare : spare.Sublist s.spare) (hfresh : s.fresh ≤ fresh) (hlt : st < fresh)
    (hst : st ∉ s.stores ++ spare) (hfree : ∀ u ∈ s.threads, u.own ≠ some st) :
    Owned ({ s with spare := spare, fresh := fresh }.setStage i t (.filling st)) := by
  rw [List.mem_append, not_or] at hst
  have hown : (⟨t.role, t.first, .filling st⟩ : Thread).own = some st := rfl
  have hsub : ∀ st, st ∈ s.stores ++ spare → st ∈ s.stores ++ s.spare := fun st hmem =>
    ((List.Sublist.refl _).append hspare).subset hmem
  constructor
  · exact ((List.Sublist.refl _).append hspare).nodup h.nodup
  · exact fun st' hst' => Nat.lt_of_lt_of_le (h.old st' (hsub st' hst')) hfresh
  · refine Calls.forall_set (fun st' hst' => ?_) fun u hu st' hst' => ?_
    · obtain rfl := Option.some.inj (hown.symm.trans hst')
      exact ⟨hlt, hst.2⟩
    · obtain ⟨hold, hnot⟩ := h.owned u hu st' hst'
      exact ⟨Nat.lt_of_lt_of_le hold hfresh, fun hmem => hnot (hspare.subset hmem)⟩
  · refine h.alone.set ht fun st' j u hst' _ hu => ?_
    obtain rfl := Option.some.inj (hown.symm.trans hst')
    exact hfree u (List.mem_of_getElem? hu)
  · refine Calls.forall_set (fun st' hst' => ?_) h.filled
    obtain rfl := Option.some.inj (hown.symm.trans hst')
    exact hst.1
  · exact Calls.forall_set (by simp [Thread.reads]) h.read
  · have hsame : (⟨t.role, t.first, .filling st⟩ : Thread).reads = t.reads := hreads.symm
    exact fun e he => (h.readers e he).trans (countP_reads_set ht hsame _).symm

theorem Owned.publish (h : Owned s) (ht : s.threads[i]? = some t) (hst : t.stage = .filling st) {o : Option Nat}
    (ho : ∀ st', o = some st' → st' = st) : Owned ((s.publish t.first st).setStage i t (.evicting o)) := by
  have hmem := List.mem_of_getElem? ht
  have hfill : t.fill = some st := by simp [Thread.fill, hst]
  have hreads : t.reads = none := by simp [Thread.reads, hst]
  have hnew := h.filled t hmem st hfill
  obtain ⟨hlt, hspare⟩ := h.owned t hmem st (own_of_fill hfill)
  have hless : ∀ st', (⟨t.role, t.first, .evicting o⟩ : Thread).own = some st' → t.own = some st' := by
    intro st' hst'
    rw [ho st' hst']
    exact own_of_fill hfill
  constructor
  · refine List.nodup_cons.mpr ⟨fun hin => ?_, h.nodup⟩
    rcases List.mem_append.mp hin with hin | hin
    · exact hnew hin
    · exact hspare hin
  · intro st' hst'
    rcases List.mem_cons.mp hst' with rfl | hst'
    · exact hlt
    · exact h.old st' hst'
  · exact Calls.forall_set (fun st' hst' => h.owned t hmem st' (hless st' hst')) h.owned
  · exact h.alone.same ht hless
  · intro u hu st' hst'
    obtain ⟨j, hj⟩ := List.mem_iff_getElem?.mp hu
    rcases (Calls.getElem?_set_iff ht).mp hj with ⟨-, rfl⟩ | ⟨hne, hju⟩
    · simp [Thread.fill] at hst'
    · intro hmem'
      rcases List.mem_cons.mp hmem' with rfl | hmem'
      · exact hne (h.alone j i u t _ hju ht (own_of_fill hst') (own_of_fill hfill))
      · exact h.filled u (List.mem_of_getElem? hju) st' hst' hmem'
  · exact Calls.forall_set (by simp [Thread.reads]) fun u hu st' hst' =>
      List.mem_cons_of_mem _ (h.read u hu st' hst')
  · intro e he
    have hsame : (⟨t.role, t.first, .evicting o⟩ : Thread).reads = t.reads := hreads.symm
    refine Eq.trans ?_ (countP_reads_set ht hsame _).symm
    rcases List.mem_cons.mp he with rfl | he
    · refine (List.countP_eq_zero.mpr fun u hu => ?_).symm
      rw [decide_eq_true_eq]
      exact fun hread => hnew (h.read u hu st hread)
    · exact h.readers e he

theorem victim_mem (hv : s.victim = some v) : v ∈ s.cache ∧ v.readers = 0 := by
  have hmem := List.mem_of_getLast? hv
  rw [List.mem_filter] at hmem
  exact ⟨List.mem_of_mem_tail hmem.1, by simpa using hmem.2⟩

theorem mem_evict_stores : st ∈ (s.evict v).stores ↔ st ∈ s.stores ∧ st ≠ v.store := by
  simp only [State.evict, mem_stores, List.mem_filter, decide_eq_true_eq]
  constructor
  · rintro ⟨e, ⟨he, hne⟩, rfl⟩
    exact ⟨⟨e, he, rfl⟩, hne⟩
  · rintro ⟨⟨e, he, rfl⟩, hne⟩
    exact ⟨e, ⟨he, hne⟩, rfl⟩

/-- The victim's store goes to `spare` only when no thread holds it. -/
theorem mem_evict_spare (h : st ∈ (s.evict v).spare) :
    st ∈ s.spare ∨ st = v.store ∧ ∀ t ∈ s.threads, t.own ≠ some st := by
  simp only [State.evict] at h
  split at h
  · exact .inl h
  · rename_i hfree
    rcases List.mem_cons.mp h with rfl | h
    · refine .inr ⟨rfl, fun t ht hown => hfree (List.any_eq_true.mpr ⟨t, ht, ?_⟩)⟩
      rw [holds_of_own hown]
      simp
    · exact .inl h

theorem Owned.evict (h : Owned s) (hv : s.victim = some v) : Owned (s.evict v) := by
  obtain ⟨hmem, hzero⟩ := victim_mem hv
  have hin : v.store ∈ s.stores := mem_stores.mpr ⟨v, hmem, rfl⟩
  have hsub : (s.evict v).stores.Sublist s.stores := List.filter_sublist.map _
  have hnodup := List.nodup_append.mp h.nodup
  have hnotin : v.store ∉ s.spare := fun hspare => hnodup.2.2 _ hin _ hspare rfl
  constructor
  · refine List.nodup_append.mpr ⟨hsub.nodup hnodup.1, ?_, fun a ha b hb hab => ?_⟩
    · simp only [State.evict]
      split
      · exact hnodup.2.1
      · exact List.nodup_cons.mpr ⟨hnotin, hnodup.2.1⟩
    · subst hab
      obtain ⟨ha, hne⟩ := mem_evict_stores.mp ha
      rcases mem_evict_spare hb with hb | ⟨rfl, -⟩
      · exact hnodup.2.2 a ha a hb rfl
      · exact hne rfl
  · intro st hst
    rcases List.mem_append.mp hst with hst | hst
    · exact h.old st (List.mem_append_left _ (hsub.subset hst))
    · rcases mem_evict_spare hst with hst | ⟨rfl, -⟩
      · exact h.old st (List.mem_append_right _ hst)
      · exact h.old _ (List.mem_append_left _ hin)
  · intro t ht st hown
    obtain ⟨hlt, hspare⟩ := h.owned t ht st hown
    refine ⟨hlt, fun hst => ?_⟩
    rcases mem_evict_spare hst with hst | ⟨-, hfree⟩
    · exact hspare hst
    · exact hfree t ht hown
  · exact h.alone
  · exact fun t ht st hfill hst => h.filled t ht st hfill (hsub.subset hst)
  · intro t ht st hread
    refine mem_evict_stores.mpr ⟨h.read t ht st hread, ?_⟩
    rintro rfl
    have hnone := List.countP_eq_zero.mp ((h.readers v hmem).symm.trans hzero) t ht
    rw [decide_eq_true_eq] at hnone
    exact hnone hread
  · exact fun e he => h.readers e (List.mem_filter.mp he).1

theorem Owned.trimLoop (h : Owned s) (fuel : Nat) : Owned (s.trimLoop fuel) := by
  induction fuel generalizing s with
  | zero => exact h
  | succ fuel ih =>
    rw [State.trimLoop]
    split
    · exact h
    · cases hv : s.victim with
      | none => exact h
      | some v => exact ih (h.evict hv)

theorem trimLoop_threads (fuel : Nat) : (s.trimLoop fuel).threads = s.threads := by
  induction fuel generalizing s with
  | zero => rfl
  | succ fuel ih =>
    rw [State.trimLoop]
    split
    · rfl
    · cases s.victim with
      | none => rfl
      | some v => exact ih

theorem find_some {first : Nat} (h : s.find first = some e) : e ∈ s.cache ∧ e.first = first :=
  ⟨List.mem_of_find?_eq_some h, by simpa using List.find?_some h⟩

theorem mem_hit_stores (he : e ∈ s.cache) : st ∈ (s.hit e).stores ↔ st ∈ s.stores := by
  simp only [State.hit, State.stores, List.map_cons, List.mem_cons, List.mem_map, List.mem_filter,
    decide_eq_true_eq]
  constructor
  · rintro (rfl | ⟨f, ⟨hf, -⟩, rfl⟩)
    · exact ⟨e, he, rfl⟩
    · exact ⟨f, hf, rfl⟩
  · rintro ⟨f, hf, rfl⟩
    by_cases heq : f.store = e.store
    · exact .inl heq
    · exact .inr ⟨f, ⟨hf, heq⟩, rfl⟩

theorem hit_length (h : Owned s) (he : e ∈ s.cache) : (s.hit e).cache.length = s.cache.length := by
  have hnodup := (List.nodup_append.mp h.nodup).1
  have hperm : s.stores.Perm (e.store :: s.stores.erase e.store) :=
    List.perm_cons_erase (mem_stores.mpr ⟨e, he, rfl⟩)
  have hfilter : s.stores.erase e.store = (s.cache.filter fun f => f.store ≠ e.store).map (·.store) := by
    rw [hnodup.erase_eq_filter, State.stores, List.filter_map]
    exact congrArg _ (List.filter_congr fun f _ => by simp [bne, Bool.beq_eq_decide_eq])
  have hlen := hperm.length_eq
  rw [State.stores, List.length_map, List.length_cons, ← State.stores, hfilter, List.length_map] at hlen
  exact hlen.symm

theorem Owned.hit (h : Owned s) (ht : s.threads[i]? = some t) (hst : t.stage = .lookup) (he : e ∈ s.cache) :
    Owned ((s.hit e).setStage i t (.holding true e.store)) := by
  have hnodup := List.nodup_append.mp h.nodup
  have hreads : t.reads = none := by simp [Thread.reads, hst]
  constructor
  · refine List.nodup_append.mpr ⟨List.nodup_cons.mpr ⟨fun hin => ?_, ?_⟩, hnodup.2.1, fun a ha b hb => ?_⟩
    · obtain ⟨f, hf, heq⟩ := List.mem_map.mp hin
      simp only [List.mem_filter, decide_eq_true_eq] at hf
      exact hf.2 heq
    · exact (List.filter_sublist.map _).nodup hnodup.1
    · exact hnodup.2.2 a ((mem_hit_stores he).mp ha) b hb
  · intro st hmem
    rcases List.mem_append.mp hmem with hmem | hmem
    · exact h.old st (List.mem_append_left _ ((mem_hit_stores he).mp hmem))
    · exact h.old st (List.mem_append_right _ hmem)
  · exact Calls.forall_set (by simp [Thread.own]) h.owned
  · exact h.alone.same ht (by simp [Thread.own])
  · exact Calls.forall_set (by simp [Thread.fill]) fun u hu st hfill hin =>
      h.filled u hu st hfill ((mem_hit_stores he).mp hin)
  · refine Calls.forall_set (fun st hread => ?_) fun u hu st hread => (mem_hit_stores he).mpr (h.read u hu st hread)
    obtain rfl : e.store = st := Option.some.inj hread
    exact (mem_hit_stores he).mpr (mem_stores.mpr ⟨e, he, rfl⟩)
  · intro f hf
    have hcount := Calls.countP_set (y := ⟨t.role, t.first, .holding true e.store⟩)
      (p := fun u => u.reads = some f.store) ht
    simp only [hreads, reduceCtorEq, decide_false, Bool.false_eq_true, if_false, Nat.add_zero] at hcount
    rcases List.mem_cons.mp hf with rfl | hf
    · have hread : (⟨t.role, t.first, .holding true e.store⟩ : Thread).reads = some e.store := rfl
      simp only [hread, decide_true, if_true] at hcount
      exact (congrArg (· + 1) (h.readers e he)).trans hcount.symm
    · obtain ⟨hfm, hne⟩ := List.mem_filter.mp hf
      rw [decide_eq_true_eq] at hne
      have hread : (⟨t.role, t.first, .holding true e.store⟩ : Thread).reads ≠ some f.store :=
        fun heq => hne (Option.some.inj heq).symm
      simp only [hread, decide_false, Bool.false_eq_true, if_false, Nat.add_zero] at hcount
      exact (h.readers f hfm).trans hcount.symm

theorem unread_stores : (s.unread st).stores = s.stores := by
  simp only [State.unread, State.stores, List.map_map]
  refine List.map_congr_left fun e _ => ?_
  simp only [Function.comp_apply]
  split <;> rfl

theorem Owned.unread (h : Owned s) (ht : s.threads[i]? = some t) (hst : t.stage = .leaving (some st)) :
    Owned ((s.unread st).setStage i t .ended) := by
  have hreads : t.reads = some st := by simp [Thread.reads, hst]
  have hstores : ((s.unread st).setStage i t .ended).stores = s.stores := unread_stores
  constructor
  · rw [hstores]
    exact h.nodup
  · rw [hstores]
    exact h.old
  · exact Calls.forall_set (by simp [Thread.own]) h.owned
  · exact h.alone.same ht (by simp [Thread.own])
  · rw [hstores]
    exact Calls.forall_set (by simp [Thread.fill]) h.filled
  · rw [hstores]
    exact Calls.forall_set (by simp [Thread.reads]) h.read
  · intro f hf
    have hcount := Calls.countP_set (y := ⟨t.role, t.first, .ended⟩) (p := fun u => u.reads = some f.store) ht
    have hnone : (⟨t.role, t.first, .ended⟩ : Thread).reads = none := rfl
    simp only [hreads, hnone, reduceCtorEq, decide_false, Bool.false_eq_true, if_false, Nat.add_zero,
      Option.some.injEq, decide_eq_true_eq] at hcount
    obtain ⟨e, he, rfl⟩ := List.mem_map.mp hf
    have hold := h.readers e he
    by_cases heq : e.store = st
    · simp only [heq, if_true] at hcount hold ⊢
      exact Nat.sub_eq_of_eq_add (hold.trans hcount.symm)
    · simp only [if_neg heq, if_neg (Ne.symm heq), Nat.add_zero] at hcount ⊢
      exact hold.trans hcount.symm

end Owned

/-! ## What a step does -/

/-- What a step does to the chunks and their stores, beside the chunk it claims. -/
inductive Turn (numFrames : Nat) (s : State) : Option Nat → State → Prop
  | keep {i : Nat} {t t' : Thread} {p : Nat} : s.threads[i]? = some t → Less t' t → t'.evicts = t.evicts →
      (t'.claim = t.claim ∨ t'.claim = none ∧ t'.own = none ∧ t'.allocates = false) →
      Turn numFrames s none { s with threads := s.threads.set i t', prefetching := p }
  | claim {i : Nat} {t t' : Thread} {k : Nat} : s.threads[i]? = some t → Less t' t → t'.evicts = t.evicts →
      t.claim = none → t'.claim = some k → t'.own = none → t'.allocates = false → ¬ s.chunkKnown k →
      Turn numFrames s (some k) { s.claimChunk k with threads := s.threads.set i t' }
  | unclaim {i : Nat} {t t' : Thread} {k : Nat} : s.threads[i]? = some t → Less t' t → t'.evicts = t.evicts →
      t.claim = some k → t'.claim = none → t'.own = none → t'.allocates = false →
      Turn numFrames s none { s.unclaim k with threads := s.threads.set i t' }
  | join {t : Thread} : Blank t → t.claim = none → IsStart numFrames t.first →
      (t.early = true → IsStart numFrames t.next) → Turn numFrames s none (s.join t)
  | spawn {i : Nat} {t t' u : Thread} : s.threads[i]? = some t → Less t' t → t'.evicts = t.evicts →
      t.claim = some u.first → t'.claim = none → t'.own = none → t'.allocates = false → Blank u →
      u.claim = some u.first → t.early = true → u.first = t.next → u.early = false →
      Turn numFrames s none ({ s with threads := s.threads.set i t' }.join u)
  | take {i : Nat} {t : Thread} {st : Nat} {rest : List Nat} : s.threads[i]? = some t → t.stage = .starting →
      s.spare = st :: rest → Turn numFrames s none ({ s with spare := rest }.setStage i t (.filling st))
  | ask {i : Nat} {t : Thread} : s.threads[i]? = some t → t.stage = .starting → s.spare = [] →
      Turn numFrames s none (s.setStage i t .allocating)
  | allocate {i : Nat} {t : Thread} : s.threads[i]? = some t → t.stage = .allocating →
      Turn numFrames s none ({ s with fresh := s.fresh + 1 }.setStage i t (.filling s.fresh))
  | publish {i : Nat} {t : Thread} {st : Nat} {o : Option Nat} : s.threads[i]? = some t → t.stage = .filling st →
      (∀ st', o = some st' → st' = st) → Turn numFrames s none ((s.publish t.first st).setStage i t (.evicting o))
  | abort {i : Nat} {t : Thread} : s.threads[i]? = some t → t.stage = .failing →
      Turn numFrames s none ((s.unclaim t.first).setStage i t (.evicting none))
  | trim {i : Nat} {t t' : Thread} : s.threads[i]? = some t → Less t' t → t.claim = none → t'.claim = none →
      (t'.evicts = t.evicts ∨ s.trim.cache.length ≤ kCacheLimit) →
      Turn numFrames s none { s.trim with threads := s.trim.threads.set i t' }
  | hit {i : Nat} {t : Thread} {e : Entry} : s.threads[i]? = some t → t.stage = .lookup → e ∈ s.cache →
      Turn numFrames s none ((s.hit e).setStage i t (.holding true e.store))
  | unread {i : Nat} {t : Thread} {st : Nat} : s.threads[i]? = some t → t.stage = .leaving (some st) →
      Turn numFrames s none ((s.unread st).setStage i t .ended)

section Turns

variable {s s' : State} {i : Nat} {t t' : Thread} {ev : Event} {numFrames : Nat}

/-- A thread that holds no store at all. -/
theorem Less.idle (hfirst : t'.first = t.first) (hearly : t'.early = false ∨ t.early = true)
    (hown : t'.own = none) (hfill : t'.fill = none)
    (halloc : t'.allocates = false) (hreads : t'.reads = t.reads) : Less t' t :=
  ⟨hfirst, hearly, by simp [hown], by simp [hfill], by simp [halloc], hreads⟩

/-- The thread goes on with what it held. -/
theorem Less.same (hfirst : t'.first = t.first) (hearly : t'.early = false ∨ t.early = true)
    (hown : t'.own = t.own) (hfill : t'.fill = none)
    (halloc : t'.allocates = false) (hreads : t'.reads = t.reads) : Less t' t :=
  ⟨hfirst, hearly, by simp [hown], by simp [hfill], by simp [halloc], hreads⟩

theorem claims_go (ht : s.threads[i]? = some t) : s.claims (.go i) =
    match t.stage with
    | .reserved => if s.chunkKnown t.next then none else some t.next
    | .lookup => if s.chunkKnown t.first then none else some t.first
    | _ => none := by
  obtain ⟨role, first, stage⟩ := t
  cases stage <;> simp [State.claims, ht]

theorem go_turn (ht : s.threads[i]? = some t) (h : s.go i t = some s') : Turn numFrames s (s.claims (.go i)) s' := by
  rw [claims_go ht]
  obtain ⟨role, first, stage⟩ := t
  cases stage with
  | ahead =>
    simp only [State.go] at h
    split at h <;> cases h
    · exact .keep ht (.idle rfl (.inr rfl) rfl rfl rfl rfl) rfl (.inl rfl)
    · exact .keep ht (.idle rfl (.inl rfl) rfl rfl rfl rfl) rfl (.inl rfl)
  | reserved =>
    simp only [State.go] at h ⊢
    split at h <;> rename_i hknown <;> cases h
    · rw [if_pos hknown]
      exact .keep ht (.idle rfl (.inl rfl) rfl rfl rfl rfl) rfl (.inl rfl)
    · rw [if_neg hknown]
      exact .claim ht (.idle rfl (.inr rfl) rfl rfl rfl rfl) rfl rfl rfl rfl rfl hknown
  | gathering =>
    cases h
    have hblank : Blank ⟨.prefetch, first + kBm4dChunk, .starting⟩ := ⟨rfl, rfl, rfl, rfl, rfl⟩
    exact .spawn ht (.idle rfl (.inl rfl) rfl rfl rfl rfl) rfl rfl rfl rfl rfl hblank rfl rfl rfl rfl
  | unstarted =>
    cases h
    dsimp only
    split
    · exact .trim ht (.idle rfl (.inl rfl) rfl rfl rfl rfl) rfl rfl (.inl rfl)
    · exact .trim ht (.idle rfl (.inl rfl) rfl rfl rfl rfl) rfl rfl (.inl rfl)
  | returning =>
    cases h
    dsimp only
    split
    · exact .keep ht (.idle rfl (.inl rfl) rfl rfl rfl rfl) rfl (.inl rfl)
    · exact .keep ht (.idle rfl (.inl rfl) rfl rfl rfl rfl) rfl (.inl rfl)
  | lookup =>
    simp only [State.go] at h ⊢
    cases hfind : s.find first with
    | some e =>
      rw [hfind] at h
      cases h
      rw [if_pos (.inl (by rw [hfind]; rfl))]
      exact .hit ht rfl (find_some hfind).1
    | none =>
      rw [hfind] at h
      dsimp only at h
      split at h <;> cases h
      rename_i hcomputing
      have hknown : ¬ s.chunkKnown first := by simp [State.chunkKnown, hfind, hcomputing]
      rw [if_neg hknown]
      exact .claim ht (.idle rfl (.inl rfl) rfl rfl rfl rfl) rfl rfl rfl rfl rfl hknown
  | claimed =>
    simp only [State.go] at h
    split at h <;> cases h
    exact .keep ht (.idle rfl (.inl rfl) rfl rfl rfl rfl) rfl (.inl rfl)
  | starting =>
    simp only [State.go] at h
    split at h <;> rename_i hspare <;> cases h
    · exact .ask ht rfl hspare
    · exact .take ht rfl hspare
  | allocating =>
    cases h
    exact .allocate ht rfl
  | filling store =>
    cases h
    refine .publish ht rfl fun st' hst' => ?_
    split at hst'
    · exact (Option.some.inj hst').symm
    · cases hst'
  | failing =>
    cases h
    exact .abort ht rfl
  | evicting store =>
    cases h
    dsimp only
    split
    · rename_i hfits
      cases role <;> cases store
      · exact .trim ht (.idle rfl (.inl rfl) rfl rfl rfl rfl) rfl rfl (.inr hfits)
      · exact .trim ht (.same rfl (.inl rfl) rfl rfl rfl rfl) rfl rfl (.inr hfits)
      · exact .trim ht (.idle rfl (.inl rfl) rfl rfl rfl rfl) rfl rfl (.inr hfits)
      · exact .trim ht (.idle rfl (.inl rfl) rfl rfl rfl rfl) rfl rfl (.inr hfits)
    · exact .trim ht (.same rfl (.inl rfl) rfl rfl rfl rfl) rfl rfl (.inl rfl)
  | holding hit store =>
    simp only [State.go] at h
    split at h <;> cases h
    cases hit <;> exact .keep ht (.same rfl (.inl rfl) rfl rfl rfl rfl) rfl (.inl rfl)
  | copying hit store =>
    cases h
    cases hit <;> exact .keep ht (.same rfl (.inl rfl) rfl rfl rfl rfl) rfl (.inl rfl)
  | copied hit store =>
    cases h
    cases hit <;> exact .keep ht (.idle rfl (.inl rfl) rfl rfl rfl rfl) rfl (.inl rfl)
  | leaving entry =>
    cases entry with
    | none =>
      cases h
      exact .keep ht (.idle rfl (.inl rfl) rfl rfl rfl rfl) rfl (.inl rfl)
    | some store =>
      cases h
      exact .unread ht rfl
  | ended => cases h

theorem fail_turn (ht : s.threads[i]? = some t) (h : s.fail i t = some s') : Turn numFrames s none s' := by
  obtain ⟨role, first, stage⟩ := t
  cases stage with
  | ahead | reserved | unstarted | lookup =>
    cases h
    exact .keep ht (.idle rfl (.inl rfl) rfl rfl rfl rfl) rfl (.inl rfl)
  | gathering =>
    cases h
    exact .keep ht (.idle rfl (.inl rfl) rfl rfl rfl rfl) rfl (.inr ⟨rfl, rfl, rfl⟩)
  | starting | allocating | filling =>
    cases h
    exact .keep ht (.idle rfl (.inl rfl) rfl rfl rfl rfl) rfl (.inl rfl)
  | copying hit store =>
    cases h
    cases hit <;> exact .keep ht (.same rfl (.inl rfl) rfl rfl rfl rfl) rfl (.inl rfl)
  | _ => cases h

theorem refuse_turn (ht : s.threads[i]? = some t) (h : s.refuse i t = some s') : Turn numFrames s none s' := by
  obtain ⟨role, first, stage⟩ := t
  cases stage with
  | gathering =>
    cases h
    exact .unclaim ht (.idle rfl (.inl rfl) rfl rfl rfl rfl) rfl rfl rfl rfl rfl
  | _ => cases h

theorem chunkFirst_isStart {n : Nat} (h : n < numFrames) : IsStart numFrames (chunkFirst n) := by
  constructor
  · unfold chunkFirst kBm4dChunk
    omega
  · exact Nat.lt_of_le_of_lt (Nat.sub_le _ _) h

theorem next_isStart {first : Nat} (h : IsStart numFrames first) (hlt : first + kBm4dChunk < numFrames) :
    IsStart numFrames (first + kBm4dChunk) :=
  ⟨(Nat.add_mod_right _ _).trans h.mod_eq, hlt⟩

theorem request_turn {n : Nat} (h : s.request numFrames n = some s') : Turn numFrames s none s' := by
  rw [State.request] at h
  split at h
  · rename_i hn
    have hstart := chunkFirst_isStart hn
    split at h <;> rename_i hahead <;> cases h
    · have hblank : Blank ⟨.request, chunkFirst n, .ahead⟩ := ⟨rfl, rfl, rfl, rfl, rfl⟩
      exact .join hblank rfl hstart fun _ => next_isStart hstart hahead.2.1
    · have hblank : Blank ⟨.request, chunkFirst n, .lookup⟩ := ⟨rfl, rfl, rfl, rfl, rfl⟩
      exact .join hblank rfl hstart fun he => absurd he Bool.false_ne_true
  · cases h

theorem step_turn (h : s.step numFrames ev = some s') : Turn numFrames s (s.claims ev) s' := by
  cases ev with
  | request n => exact request_turn h
  | go i =>
    obtain ⟨t, ht, hgo⟩ := Option.bind_eq_some_iff.mp h
    exact go_turn ht hgo
  | fail i =>
    obtain ⟨t, ht, hfail⟩ := Option.bind_eq_some_iff.mp h
    exact fail_turn ht hfail
  | refuse i =>
    obtain ⟨t, ht, hrefuse⟩ := Option.bind_eq_some_iff.mp h
    exact refuse_turn ht hrefuse

theorem Owned.turn (h : Owned s) {k : Option Nat} (hturn : Turn numFrames s k s') : Owned s' := by
  cases hturn with
  | keep ht hless => exact h.keep ht hless _ _
  | claim ht hless => exact h.keep ht hless _ _
  | unclaim ht hless => exact h.keep ht hless _ _
  | join hblank => exact h.join hblank
  | spawn ht hless _ _ _ _ _ hblank => exact (h.keep ht hless _ _).join hblank
  | @take i t st rest ht hst hspare =>
    have hin : st ∈ s.spare := by simp [hspare]
    have hrest := List.nodup_append.mp h.nodup
    have hcons := hrest.2.1
    rw [hspare, List.nodup_cons] at hcons
    refine h.takes ht (by simp [Thread.reads, hst]) (by simp [hspare]) (Nat.le_refl _)
      (h.old st (List.mem_append_right _ hin)) ?_ fun u hu hown => (h.owned u hu st hown).2 hin
    rw [List.mem_append, not_or]
    exact ⟨fun hstore => hrest.2.2 st hstore st hin rfl, hcons.1⟩
  | @ask i t ht hst =>
    have hreads : (⟨t.role, t.first, .allocating⟩ : Thread).reads = t.reads := by simp [Thread.reads, hst]
    exact h.set ht (by simp [Thread.own]) (by simp [Thread.fill]) hreads _ _
  | allocate ht hst =>
    refine h.takes ht (by simp [Thread.reads, hst]) (List.Sublist.refl _) (Nat.le_succ _) (Nat.lt_succ_self _)
      (fun hin => Nat.lt_irrefl _ (h.old _ hin)) fun u hu hown => ?_
    exact Nat.lt_irrefl _ (h.owned u hu _ hown).1
  | publish ht hst ho => exact h.publish ht hst ho
  | @abort i t ht hst =>
    have hreads : (⟨t.role, t.first, .evicting none⟩ : Thread).reads = t.reads := by simp [Thread.reads, hst]
    exact h.set ht (by simp [Thread.own]) (by simp [Thread.fill]) hreads _ _
  | trim ht hless =>
    rw [← trimLoop_threads] at ht
    exact (h.trimLoop _).keep ht hless _ _
  | hit ht hst he => exact h.hit ht hst he
  | unread ht hst => exact h.unread ht hst

end Turns

end NssFactory.Cuda.Bm4d

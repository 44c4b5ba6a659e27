import Mathlib.Data.Finset.Basic
import NssFactory.Lib.Calls
import NssFactory.Lib.Steps

/-!
# The cache of finished chunks

`gpuhost/chunk_cache.hpp`: an LRU list of finished chunks, shared by all requests of a node. A
request that finds its chunk reads it where it is (a hit: the entry is not dropped meanwhile);
one that does not computes it, alone, and then drops the oldest entries nobody reads, waiting
for a reader when there is none. The cache grows when chunks it dropped are asked for again.

Each step of `Sys` is one critical section of `mu_`. `single_flight` is what holds after every
run of any number of `get` calls and destructions of their chunks.
-/

namespace NssFactory.GpuHost

/-- The finished frames of one chunk. -/
structure ChunkStore (B : Type*) where
  start : Int
  count : Int
  bytes : B

/-- A list node of the cache. `node` stands for its address, `readers` counts the requests that
hold it as a hit. -/
structure Entry (B : Type*) where
  node : Nat
  store : ChunkStore B
  readers : Int

/-- The members of `ChunkCache` that `mu_` guards, the most recently used entry first. -/
structure ChunkCache (B : Type*) where
  size : Int
  cap : Int
  dropped : List Int
  droppedHits : Int
  entries : List (Entry B)
  computing : Finset Int
  nextNode : Nat

variable {B : Type*}

namespace ChunkCache

def init (size cap : Int) : ChunkCache B where
  size := size
  cap := cap
  dropped := []
  droppedHits := 0
  entries := []
  computing := ∅
  nextNode := 0

variable (c : ChunkCache B)

def find (start : Int) : Option (Entry B) := c.entries.find? fun e => e.store.start == start

/-- The entry becomes the most recently used one, with one more reader. -/
def hit (e : Entry B) : ChunkCache B :=
  { c with
    entries := { e with readers := e.readers + 1 } :: c.entries.filter fun f => f.node ≠ e.node }

/-- A miss on a chunk the cache dropped recently: after two of them it keeps one more chunk. -/
def account (start : Int) : ChunkCache B :=
  if c.size < c.cap ∧ start ∈ c.dropped then
    if c.droppedHits + 1 ≥ 2 then
      { c with dropped := c.dropped.erase start, droppedHits := 0, size := c.size + 1 }
    else { c with dropped := c.dropped.erase start, droppedHits := c.droppedHits + 1 }
  else c

def miss (start : Int) : ChunkCache B :=
  { c.account start with computing := insert start (c.account start).computing }

/-- The computation of `start` is over: with a store, or an exception. -/
def ended (start : Int) : ChunkCache B := { c with computing := c.computing.erase start }

def pushFront (store : ChunkStore B) : ChunkCache B :=
  { c with entries := ⟨c.nextNode, store, 0⟩ :: c.entries, nextNode := c.nextNode + 1 }

/-- The oldest chunk no hit is reading, behind the first entry. -/
def victim : Option (Entry B) := (c.entries.tail.filter fun e => e.readers = 0).getLast?

def drop (v : Entry B) : ChunkCache B :=
  { c with
    dropped := c.dropped ++ [v.store.start]
    entries := c.entries.filter fun f => f.node ≠ v.node }

/-- The loop over the cache's size, until it waits for a reader (`false`) or is done. Each round
drops an entry, so the number of entries is fuel enough. -/
def evict : Nat → ChunkCache B → ChunkCache B × Bool
  | 0, c => (c, decide ((c.entries.length : Int) ≤ c.size))
  | fuel + 1, c =>
    if (c.entries.length : Int) ≤ c.size then (c, true)
    else
      match c.victim with
      | none => (c, false)
      | some v => evict fuel (c.drop v)

def trim : ChunkCache B :=
  { c with dropped := c.dropped.drop (c.dropped.length - (max 8 (2 * c.cap)).toNat) }

/-- A hit lets go of its entry. -/
def release (node : Nat) : ChunkCache B :=
  { c with
    entries := c.entries.map fun e => if e.node = node then { e with readers := e.readers - 1 } else e }

end ChunkCache

/-- Where a `get` and the chunk it returns are: before its hit or miss (perhaps waiting for
another thread's computation); computing; in its eviction loop, waiting for a reader; with the
chunk, which reads an entry if it was a hit; the chunk destroyed; left with the exception. -/
inductive Phase (B : Type*) where
  | asked
  | computing
  | evicting (store : ChunkStore B)
  | holds (store : ChunkStore B) (entry : Option Nat)
  | gone
  | threw

structure Call (B : Type*) where
  start : Int
  phase : Phase B

namespace Phase

/-- The store that the call returns or has returned. -/
def store? : Phase B → Option (ChunkStore B)
  | .evicting store | .holds store _ => some store
  | _ => none

/-- The chunk is a reader of the entry at `node`. -/
def reads (node : Nat) : Phase B → Bool
  | .holds _ (some entry) => entry = node
  | _ => false

end Phase

/-- The start that a call computes. -/
def Call.flight (c : Call B) : Option Int :=
  match c.phase with
  | .computing => some c.start
  | _ => none

/-- A cache and the calls on it. -/
structure Sys (B : Type*) where
  cache : ChunkCache B
  calls : List (Call B)

inductive Event (B : Type*) where
  | ask (start : Int)
  | hit (k : Nat)
  | miss (k : Nat)
  | computed (k : Nat) (store : ChunkStore B)
  | throws (k : Nat)
  | wake (k : Nat)
  | release (k : Nat)

namespace Sys

def init (size cap : Int) : Sys B := ⟨.init size cap, []⟩

variable (s : Sys B)

def setPhase (k : Nat) (c : Call B) (phase : Phase B) : List (Call B) :=
  s.calls.set k { c with phase := phase }

/-- Call `k` runs its eviction loop: it returns its chunk, or waits for a reader. -/
def settle (k : Nat) (c : Call B) (store : ChunkStore B) (cache : ChunkCache B) : Sys B :=
  let (cache, done) := cache.evict cache.entries.length
  if done then ⟨cache.trim, s.setPhase k c (.holds store none)⟩
  else ⟨cache, s.setPhase k c (.evicting store)⟩

/-- The critical sections of `get` and of the destructor of its chunk. A `compute` that returns
gives a store of the start it was called for. -/
inductive Step : Sys B → Event B → Sys B → Prop
  | ask {s : Sys B} {start : Int} :
      Step s (.ask start) { s with calls := s.calls ++ [⟨start, .asked⟩] }
  | hit {s : Sys B} {k : Nat} {c : Call B} {e : Entry B} :
      s.calls[k]? = some c → c.phase = .asked → s.cache.find c.start = some e →
      Step s (.hit k) ⟨s.cache.hit e, s.setPhase k c (.holds e.store (some e.node))⟩
  | miss {s : Sys B} {k : Nat} {c : Call B} :
      s.calls[k]? = some c → c.phase = .asked → s.cache.find c.start = none →
      c.start ∉ s.cache.computing →
      Step s (.miss k) ⟨s.cache.miss c.start, s.setPhase k c .computing⟩
  | computed {s : Sys B} {k : Nat} {c : Call B} {store : ChunkStore B} :
      s.calls[k]? = some c → c.phase = .computing → store.start = c.start →
      Step s (.computed k store) (s.settle k c store ((s.cache.ended c.start).pushFront store))
  | throws {s : Sys B} {k : Nat} {c : Call B} :
      s.calls[k]? = some c → c.phase = .computing →
      Step s (.throws k) ⟨s.cache.ended c.start, s.setPhase k c .threw⟩
  | wake {s : Sys B} {k : Nat} {c : Call B} {store : ChunkStore B} :
      s.calls[k]? = some c → c.phase = .evicting store →
      Step s (.wake k) (s.settle k c store s.cache)
  | release {s : Sys B} {k : Nat} {c : Call B} {store : ChunkStore B} {node : Nat} :
      s.calls[k]? = some c → c.phase = .holds store (some node) →
      Step s (.release k) ⟨s.cache.release node, s.setPhase k c .gone⟩
  | letGo {s : Sys B} {k : Nat} {c : Call B} {store : ChunkStore B} :
      s.calls[k]? = some c → c.phase = .holds store none →
      Step s (.release k) { s with calls := s.setPhase k c .gone }

end Sys

/-! ## The cache -/

/-- The entries are distinct list nodes of distinct starts, none of which is being computed. -/
structure Tidy (c : ChunkCache B) : Prop where
  nodes : (c.entries.map (·.node)).Nodup
  node_lt : ∀ e ∈ c.entries, e.node < c.nextNode
  starts : (c.entries.map (·.store.start)).Nodup
  absent : ∀ e ∈ c.entries, e.store.start ∉ c.computing

/-- `c'` is `c` after some of the entries nobody reads were dropped. -/
structure Evicted (c c' : ChunkCache B) : Prop where
  sublist : c'.entries.Sublist c.entries
  keeps : ∀ e ∈ c.entries, e.readers ≠ 0 → e ∈ c'.entries
  size_eq : c'.size = c.size
  cap_eq : c'.cap = c.cap
  computing_eq : c'.computing = c.computing
  nextNode_eq : c'.nextNode = c.nextNode

section Cache

variable {c c' c'' : ChunkCache B} {e f v : Entry B} {start : Int} {store : ChunkStore B}

theorem Evicted.refl (c : ChunkCache B) : Evicted c c :=
  ⟨List.Sublist.refl _, fun _ h _ => h, rfl, rfl, rfl, rfl⟩

theorem Evicted.trans (h : Evicted c c') (h' : Evicted c' c'') : Evicted c c'' where
  sublist := h'.sublist.trans h.sublist
  keeps e he hr := h'.keeps e (h.keeps e he hr) hr
  size_eq := h'.size_eq.trans h.size_eq
  cap_eq := h'.cap_eq.trans h.cap_eq
  computing_eq := h'.computing_eq.trans h.computing_eq
  nextNode_eq := h'.nextNode_eq.trans h.nextNode_eq

theorem Tidy.evicted (h : Tidy c) (he : Evicted c c') : Tidy c' where
  nodes := (he.sublist.map _).nodup h.nodes
  node_lt e hmem := by
    rw [he.nextNode_eq]
    exact h.node_lt e (he.sublist.subset hmem)
  starts := (he.sublist.map _).nodup h.starts
  absent e hmem := by
    rw [he.computing_eq]
    exact h.absent e (he.sublist.subset hmem)

/-- A list node is one entry. -/
theorem Tidy.node_inj (h : Tidy c) (he : e ∈ c.entries) (hf : f ∈ c.entries)
    (heq : e.node = f.node) : e = f :=
  List.inj_on_of_nodup_map h.nodes he hf heq

theorem find_some (h : c.find start = some e) : e ∈ c.entries ∧ e.store.start = start :=
  ⟨List.mem_of_find?_eq_some h, by simpa using List.find?_some h⟩

theorem find_none (h : c.find start = none) : ∀ e ∈ c.entries, e.store.start ≠ start := by
  intro e he
  simpa using List.find?_eq_none.mp h e he

theorem victim_mem (h : c.victim = some v) : v ∈ c.entries ∧ v.readers = 0 := by
  have hmem := List.mem_of_getLast? h
  rw [List.mem_filter] at hmem
  exact ⟨List.mem_of_mem_tail hmem.1, by simpa using hmem.2⟩

theorem Tidy.drop (h : Tidy c) (hv : c.victim = some v) : Evicted c (c.drop v) where
  sublist := List.filter_sublist
  keeps e he hr := by
    obtain ⟨hmem, hzero⟩ := victim_mem hv
    refine List.mem_filter.mpr ⟨he, ?_⟩
    simp only [ne_eq, decide_eq_true_eq]
    intro heq
    rw [h.node_inj he hmem heq] at hr
    exact hr hzero
  size_eq := rfl
  cap_eq := rfl
  computing_eq := rfl
  nextNode_eq := rfl

/-- The eviction loop drops entries nobody reads, and ends within the size. -/
theorem Tidy.evict (h : Tidy c) (fuel : Nat) : Evicted c (c.evict fuel).1 ∧
    ((c.evict fuel).2 = true →
      ((c.evict fuel).1.entries.length : Int) ≤ (c.evict fuel).1.size) := by
  induction fuel generalizing c with
  | zero => exact ⟨.refl c, fun hdone => by simpa [ChunkCache.evict] using hdone⟩
  | succ fuel ih =>
    rw [ChunkCache.evict]
    split
    · exact ⟨.refl c, fun _ => ‹_›⟩
    · cases hv : c.victim with
      | none => exact ⟨.refl c, nofun⟩
      | some v =>
        have hdrop := h.drop hv
        obtain ⟨hev, hdone⟩ := ih (h.evicted hdrop)
        exact ⟨hdrop.trans hev, hdone⟩

theorem Tidy.trim (h : Tidy c) : Tidy c.trim := ⟨h.nodes, h.node_lt, h.starts, h.absent⟩

theorem Tidy.hit (h : Tidy c) (he : e ∈ c.entries) : Tidy (c.hit e) := by
  have hrest : ∀ f ∈ c.entries.filter fun f => f.node ≠ e.node, f ∈ c.entries ∧ f.node ≠ e.node :=
    fun f hf => by simpa using List.mem_filter.mp hf
  have hsub : (c.entries.filter fun f => f.node ≠ e.node).Sublist c.entries := List.filter_sublist
  refine ⟨?_, ?_, ?_, ?_⟩
  · refine List.nodup_cons.mpr ⟨fun hmem => ?_, (hsub.map _).nodup h.nodes⟩
    obtain ⟨f, hf, heq⟩ := List.mem_map.mp hmem
    exact (hrest f hf).2 heq
  · intro f hf
    rcases List.mem_cons.mp hf with rfl | hf
    · exact h.node_lt e he
    · exact h.node_lt f (hrest f hf).1
  · refine List.nodup_cons.mpr ⟨fun hmem => ?_, (hsub.map _).nodup h.starts⟩
    obtain ⟨f, hf, heq⟩ := List.mem_map.mp hmem
    have hsame := List.inj_on_of_nodup_map h.starts (hrest f hf).1 he heq
    exact (hrest f hf).2 (congrArg _ hsame)
  · intro f hf
    rcases List.mem_cons.mp hf with rfl | hf
    · exact h.absent e he
    · exact h.absent f (hrest f hf).1

/-- The miss accounting leaves the entries and the marks as they are. -/
theorem account_rest : (c.account start).entries = c.entries ∧ (c.account start).computing = c.computing ∧
    (c.account start).nextNode = c.nextNode := by
  unfold ChunkCache.account
  split
  · split <;> exact ⟨rfl, rfl, rfl⟩
  · exact ⟨rfl, rfl, rfl⟩

theorem account_entries : (c.account start).entries = c.entries := account_rest.1

theorem account_computing : (c.account start).computing = c.computing := account_rest.2.1

theorem account_nextNode : (c.account start).nextNode = c.nextNode := account_rest.2.2

/-- The miss accounting grows the cache up to its cap. -/
theorem account_size : (c.account start).cap = c.cap ∧ c.size ≤ (c.account start).size ∧
    (c.account start).size ≤ max c.size c.cap := by
  unfold ChunkCache.account
  split
  · split
    · exact ⟨rfl, by simp only; omega, by simp only; omega⟩
    · exact ⟨rfl, Int.le_refl _, by simp only; omega⟩
  · exact ⟨rfl, Int.le_refl _, by omega⟩

theorem Tidy.miss (h : Tidy c) (hnone : c.find start = none) : Tidy (c.miss start) where
  nodes := by simpa only [ChunkCache.miss, account_entries] using h.nodes
  node_lt := by simpa only [ChunkCache.miss, account_entries, account_nextNode] using h.node_lt
  starts := by simpa only [ChunkCache.miss, account_entries] using h.starts
  absent e he := by
    simp only [ChunkCache.miss, account_entries] at he
    simp only [ChunkCache.miss, account_computing, Finset.mem_insert, not_or]
    exact ⟨find_none hnone e he, h.absent e he⟩

theorem Tidy.ended (h : Tidy c) : Tidy (c.ended start) where
  nodes := h.nodes
  node_lt := h.node_lt
  starts := h.starts
  absent e he hmem := h.absent e he (Finset.mem_of_mem_erase hmem)

/-- The chunk of a computation was not cached meanwhile. -/
theorem Tidy.pushFront (h : Tidy c) (hstart : store.start ∈ c.computing) :
    Tidy ((c.ended store.start).pushFront store) where
  nodes := by
    refine List.nodup_cons.mpr ⟨fun hmem => ?_, h.nodes⟩
    obtain ⟨f, hf, heq⟩ := List.mem_map.mp hmem
    exact Nat.ne_of_lt (h.node_lt f hf) heq
  node_lt f hf := by
    rcases List.mem_cons.mp hf with rfl | hf
    · exact Nat.lt_succ_self _
    · exact Nat.lt_succ_of_lt (h.node_lt f hf)
  starts := by
    refine List.nodup_cons.mpr ⟨fun hmem => ?_, h.starts⟩
    obtain ⟨f, hf, heq⟩ := List.mem_map.mp hmem
    exact h.absent f hf (by rw [heq]; exact hstart)
  absent f hf hmem := by
    rcases List.mem_cons.mp hf with rfl | hf
    · exact Finset.notMem_erase _ _ hmem
    · exact h.absent f hf (Finset.mem_of_mem_erase hmem)

theorem Tidy.release (h : Tidy c) (node : Nat) : Tidy (c.release node) := by
  have hmap : ∀ {α : Type} (g : Entry B → α), (∀ e : Entry B, ∀ r, g { e with readers := r } = g e) →
      (c.release node).entries.map g = c.entries.map g := by
    intro α g hg
    rw [ChunkCache.release, List.map_map]
    refine List.map_congr_left fun e _ => ?_
    simp only [Function.comp]
    split
    · exact hg e _
    · rfl
  have hmem : ∀ e ∈ (c.release node).entries, ∃ f ∈ c.entries, f.node = e.node ∧
      f.store = e.store := by
    intro e he
    obtain ⟨f, hf, rfl⟩ := List.mem_map.mp he
    refine ⟨f, hf, ?_⟩
    split <;> exact ⟨rfl, rfl⟩
  refine ⟨?_, ?_, ?_, ?_⟩
  · rw [hmap _ fun _ _ => rfl]
    exact h.nodes
  · intro e he
    obtain ⟨f, hf, hnode, -⟩ := hmem e he
    rw [← hnode]
    exact h.node_lt f hf
  · rw [hmap _ fun _ _ => rfl]
    exact h.starts
  · intro e he
    obtain ⟨f, hf, -, hstore⟩ := hmem e he
    rw [← hstore]
    exact h.absent f hf

end Cache

/-! ## The calls -/

/-- An entry has as many readers as there are chunks that hit it, and stays while it has some. -/
structure Pins (calls : List (Call B)) (entries : List (Entry B)) : Prop where
  readers_eq : ∀ e ∈ entries, e.readers = (calls.countP fun c => c.phase.reads e.node : Nat)
  pinned : ∀ c ∈ calls, ∀ store node, c.phase = .holds store (some node) →
    ∃ e ∈ entries, e.node = node ∧ e.store = store

section Calls

variable {calls : List (Call B)} {entries entries' : List (Entry B)}
variable {k : Nat} {c : Call B} {phase : Phase B} {start : Int} {e : Entry B}
variable {store : ChunkStore B}

theorem reads_iff {node : Nat} :
    phase.reads node = true ↔ ∃ store, phase = .holds store (some node) := by
  cases phase with
  | holds store entry => cases entry <;> simp [Phase.reads]
  | asked | computing | evicting | gone | threw => simp [Phase.reads]

theorem Pins.positive (h : Pins calls entries) (hc : c ∈ calls) {node : Nat}
    (hp : c.phase = .holds store (some node)) (he : e ∈ entries) (hnode : e.node = node) :
    e.readers ≠ 0 := by
  rw [h.readers_eq e he]
  have hpos : 0 < calls.countP fun c => c.phase.reads e.node :=
    List.countP_pos_iff.mpr ⟨c, hc, reads_iff.mpr ⟨store, hnode ▸ hp⟩⟩
  omega

/-- Dropping entries nobody reads keeps every pin. -/
theorem Pins.keep (h : Pins calls entries) (hsub : ∀ e ∈ entries', e ∈ entries)
    (hkeep : ∀ e ∈ entries, e.readers ≠ 0 → e ∈ entries') : Pins calls entries' where
  readers_eq e he := h.readers_eq e (hsub e he)
  pinned c hc store node hp := by
    obtain ⟨e, he, hnode, hstore⟩ := h.pinned c hc store node hp
    exact ⟨e, hkeep e he (h.positive hc hp he hnode), hnode, hstore⟩

/-- A call that reads no entry before and after. -/
theorem Pins.other (h : Pins calls entries) (hc : calls[k]? = some c)
    (hold : ∀ node, c.phase.reads node = false) (hnew : ∀ node, phase.reads node = false) :
    Pins (calls.set k { c with phase := phase }) entries where
  readers_eq e he := by
    rw [Calls.countP_set_same hc (by simp only [hold, hnew])]
    exact h.readers_eq e he
  pinned b hb store node hp := by
    rcases List.mem_or_eq_of_mem_set hb with hb | rfl
    · exact h.pinned b hb store node hp
    · have := hnew node
      rw [reads_iff.mpr ⟨store, hp⟩] at this
      cases this

theorem Pins.ask (h : Pins calls entries) : Pins (calls ++ [⟨start, .asked⟩]) entries where
  readers_eq e he := by
    rw [h.readers_eq e he]
    simp [Phase.reads]
  pinned b hb store node hp := by
    rcases List.mem_append.mp hb with hb | hb
    · exact h.pinned b hb store node hp
    · rw [List.mem_singleton.mp hb] at hp
      cases hp

/-- A new entry has no reader. -/
theorem Pins.push (h : Pins calls entries) {node : Nat} (hnew : ∀ e ∈ entries, e.node < node) :
    Pins calls (⟨node, store, 0⟩ :: entries) where
  readers_eq e he := by
    rcases List.mem_cons.mp he with rfl | he
    · have hzero : (calls.countP fun c => c.phase.reads node) = 0 := by
        refine List.countP_eq_zero.mpr fun c hc hr => ?_
        obtain ⟨store, hp⟩ := reads_iff.mp hr
        obtain ⟨e, he, hnode, -⟩ := h.pinned c hc store node hp
        exact Nat.ne_of_lt (hnew e he) hnode
      simp only [hzero]
      rfl
    · exact h.readers_eq e he
  pinned c hc store' node' hp := by
    obtain ⟨e, he, hrest⟩ := h.pinned c hc store' node' hp
    exact ⟨e, List.mem_cons_of_mem _ he, hrest⟩

/-- A hit is one more reader of its entry. -/
theorem Pins.hit {cache : ChunkCache B} (h : Pins calls cache.entries) (ht : Tidy cache)
    (hc : calls[k]? = some c) (hold : ∀ node, c.phase.reads node = false)
    (he : e ∈ cache.entries) :
    Pins (calls.set k { c with phase := .holds e.store (some e.node) }) (cache.hit e).entries where
  readers_eq f hf := by
    have hcount := Calls.countP_set (y := { c with phase := .holds e.store (some e.node) })
      (p := fun c => c.phase.reads f.node) hc
    have hreads : (Phase.holds e.store (some e.node)).reads f.node = decide (e.node = f.node) := rfl
    simp only [hold, hreads, Bool.false_eq_true, if_false, Nat.add_zero,
      decide_eq_true_eq] at hcount
    rw [hcount]
    rcases List.mem_cons.mp hf with rfl | hf
    · simp only [h.readers_eq e he, if_true]
      omega
    · simp only [List.mem_filter, ne_eq, decide_eq_true_eq] at hf
      rw [if_neg fun heq => hf.2 heq.symm, h.readers_eq f hf.1]
      rfl
  pinned b hb store node hp := by
    rcases List.mem_or_eq_of_mem_set hb with hb | rfl
    · obtain ⟨f, hf, hnode, hstore⟩ := h.pinned b hb store node hp
      by_cases heq : f.node = e.node
      · obtain rfl := ht.node_inj hf he heq
        exact ⟨_, List.mem_cons_self, hnode, hstore⟩
      · exact ⟨f, List.mem_cons_of_mem _ (List.mem_filter.mpr ⟨hf, by simpa using heq⟩), hnode,
          hstore⟩
    · cases hp
      exact ⟨_, List.mem_cons_self, rfl, rfl⟩

/-- A destroyed hit is one reader less of its entry. -/
theorem Pins.release {cache : ChunkCache B} (h : Pins calls cache.entries)
    (hc : calls[k]? = some c) {node : Nat} (hold : c.phase = .holds store (some node)) :
    Pins (calls.set k { c with phase := .gone }) (cache.release node).entries where
  readers_eq f hf := by
    obtain ⟨g, hg, rfl⟩ := List.mem_map.mp hf
    have hnode : (if g.node = node then { g with readers := g.readers - 1 } else g).node =
        g.node := by split <;> rfl
    have hcount := Calls.countP_set (y := { c with phase := .gone })
      (p := fun c => c.phase.reads g.node) hc
    have hreads : c.phase.reads g.node = decide (node = g.node) := by rw [hold]; rfl
    have hgone : (Phase.gone : Phase B).reads g.node = false := rfl
    simp only [hreads, hgone, Bool.false_eq_true, if_false, Nat.add_zero,
      decide_eq_true_eq] at hcount
    have hr := h.readers_eq g hg
    rw [hnode]
    by_cases heq : g.node = node
    · rw [if_pos heq.symm] at hcount
      simp only [if_pos heq]
      omega
    · rw [if_neg fun h => heq h.symm] at hcount
      simp only [if_neg heq]
      omega
  pinned b hb store' node' hp := by
    rcases List.mem_or_eq_of_mem_set hb with hb | rfl
    · obtain ⟨f, hf, hnode, hstore⟩ := h.pinned b hb store' node' hp
      refine ⟨_, List.mem_map.mpr ⟨f, hf, rfl⟩, ?_⟩
      split <;> exact ⟨hnode, hstore⟩
    · cases hp

end Calls

/-! ## Runs -/

structure Sound (s : Sys B) : Prop where
  tidy : Tidy s.cache
  flight : Calls.Marked Call.flight s.calls s.cache.computing
  pins : Pins s.calls s.cache.entries
  asked : ∀ c ∈ s.calls, ∀ store, c.phase.store? = some store → store.start = c.start
  bounded : (∀ c ∈ s.calls, ∀ store, c.phase ≠ .evicting store) →
    (s.cache.entries.length : Int) ≤ s.cache.size

section Runs

variable {s s' : Sys B} {v : Event B} {k : Nat} {c : Call B} {store : ChunkStore B}

theorem Sound.init {size : Int} (hsize : 0 ≤ size) (cap : Int) :
    Sound (Sys.init size cap : Sys B) where
  tidy := ⟨List.nodup_nil, nofun, List.nodup_nil, nofun⟩
  flight := .nil
  pins := ⟨nofun, nofun⟩
  asked := nofun
  bounded _ := hsize

/-- A computing request has its store in the cache and runs its loop. -/
theorem Sound.settle {cache : ChunkCache B} (hc : s.calls[k]? = some c)
    (hreads : ∀ node, c.phase.reads node = false) (hstart : store.start = c.start)
    (asked : ∀ c ∈ s.calls, ∀ store, c.phase.store? = some store → store.start = c.start)
    (ht : Tidy cache)
    (hf : ∀ phase, Call.flight ⟨c.start, phase⟩ = none →
      Calls.Marked Call.flight (s.setPhase k c phase) cache.computing)
    (hp : Pins s.calls cache.entries) : Sound (s.settle k c store cache) := by
  obtain ⟨hev, hdone⟩ := ht.evict cache.entries.length
  have hkeep := hp.keep (fun _ he => hev.sublist.subset he) hev.keeps
  unfold Sys.settle
  cases hwait : (cache.evict cache.entries.length).2 with
  | true =>
    simp only [hwait, if_true]
    refine ⟨(ht.evicted hev).trim, ?_, hkeep.other hc hreads fun _ => rfl,
      Calls.forall_set (fun _ h => ?_) asked, fun _ => hdone hwait⟩
    · change Calls.Marked _ _ (cache.evict cache.entries.length).1.computing
      rw [hev.computing_eq]
      exact hf _ rfl
    · cases h
      exact hstart
  | false =>
    simp only [hwait, Bool.false_eq_true, if_false]
    refine ⟨ht.evicted hev, ?_, hkeep.other hc hreads fun _ => rfl,
      Calls.forall_set (fun _ h => ?_) asked, fun hall => ?_⟩
    · rw [hev.computing_eq]
      exact hf _ rfl
    · cases h
      exact hstart
    · exact absurd rfl (hall _ (Calls.mem_set hc) store)

theorem not_evicting (hc : s.calls[k]? = some c) (hold : ∀ store, c.phase ≠ .evicting store)
    {phase : Phase B} (hall : ∀ b ∈ s.setPhase k c phase, ∀ store, b.phase ≠ .evicting store) :
    ∀ b ∈ s.calls, ∀ store, b.phase ≠ .evicting store := by
  intro b hb store hp
  refine hall b (Calls.mem_set_of_ne hc hb ?_) store hp
  rintro rfl
  exact hold store hp

theorem hit_length {cache : ChunkCache B} {e : Entry B} (he : e ∈ cache.entries) :
    (cache.hit e).entries.length ≤ cache.entries.length :=
  List.length_filter_lt_length_iff_exists.mpr ⟨e, he, by simp⟩

theorem Sound.step (h : Sound s) (hs : s.Step v s') : Sound s' := by
  cases hs with
  | ask =>
    refine ⟨h.tidy, h.flight.snoc rfl, h.pins.ask, fun b hb store hst => ?_, fun hall => h.bounded ?_⟩
    · rcases List.mem_append.mp hb with hb | hb
      · exact h.asked b hb store hst
      · rw [List.mem_singleton.mp hb] at hst
        cases hst
    · exact fun b hb => hall b (List.mem_append_left _ hb)
  | @hit k c e hc hp hfind =>
    obtain ⟨he, hstart⟩ := find_some hfind
    have hreads : ∀ node, c.phase.reads node = false := fun _ => by rw [hp]; rfl
    refine ⟨h.tidy.hit he, h.flight.same hc (by simp [Call.flight, hp]),
      h.pins.hit h.tidy hc hreads he, Calls.forall_set (fun _ hst => ?_) h.asked, fun hall => ?_⟩
    · cases hst
      exact hstart
    · have hold := h.bounded (not_evicting hc (by rw [hp]; nofun) hall)
      have hlen := hit_length he
      exact Int.le_trans (Int.ofNat_le.mpr hlen) hold
  | @miss k c hc hp hfind hfree =>
    refine ⟨h.tidy.miss hfind, ?_, ?_, Calls.forall_set nofun h.asked, fun hall => ?_⟩
    · rw [ChunkCache.miss, account_computing]
      exact h.flight.begin hc (by simp [Call.flight, hp]) rfl hfree
    · rw [ChunkCache.miss, account_entries]
      exact h.pins.other hc (fun _ => by rw [hp]; rfl) fun _ => rfl
    · have hold := h.bounded (not_evicting hc (by rw [hp]; nofun) hall)
      simp only [ChunkCache.miss, account_entries]
      exact Int.le_trans hold account_size.2.1
  | @computed k c store hc hp hstart =>
    have hmark : store.start ∈ s.cache.computing :=
      (h.flight.mem_iff _).mpr ⟨c, List.mem_of_getElem? hc, by simp [Call.flight, hp, hstart]⟩
    refine Sound.settle hc (fun _ => by rw [hp]; rfl) hstart h.asked ?_
      (fun _ hne => h.flight.ended hc (by simp [Call.flight, hp]) hne) (h.pins.push h.tidy.node_lt)
    rw [← hstart]
    exact h.tidy.pushFront hmark
  | @throws k c hc hp =>
    refine ⟨h.tidy.ended, h.flight.ended hc (by simp [Call.flight, hp]) rfl,
      h.pins.other hc (fun _ => by rw [hp]; rfl) fun _ => rfl, Calls.forall_set nofun h.asked,
      fun hall => ?_⟩
    exact h.bounded (not_evicting hc (by rw [hp]; nofun) hall)
  | @wake k c store hc hp =>
    refine Sound.settle hc (fun _ => by rw [hp]; rfl) ?_ h.asked h.tidy
      (fun _ hne => h.flight.same hc (hne.trans (by simp [Call.flight, hp]))) h.pins
    exact h.asked c (List.mem_of_getElem? hc) store (by rw [hp]; rfl)
  | @release k c store node hc hp =>
    refine ⟨h.tidy.release node, h.flight.same hc (by simp [Call.flight, hp]),
      h.pins.release hc hp, Calls.forall_set nofun h.asked, fun hall => ?_⟩
    have hold := h.bounded (not_evicting hc (by rw [hp]; nofun) hall)
    simpa [ChunkCache.release] using hold
  | @letGo k c store hc hp =>
    refine ⟨h.tidy, h.flight.same hc (by simp [Call.flight, hp]),
      h.pins.other hc (fun _ => by rw [hp]; rfl) fun _ => rfl, Calls.forall_set nofun h.asked,
      fun hall => ?_⟩
    exact h.bounded (not_evicting hc (by rw [hp]; nofun) hall)

/-- What a step does not take back: the size, and every entry that is read. -/
structure Keeps (s : Sys B) (v : Event B) (s' : Sys B) : Prop where
  size_le : s.cache.size ≤ s'.cache.size ∧ s'.cache.size ≤ max s.cache.size s.cache.cap ∧
    s'.cache.cap = s.cache.cap
  read : ∀ e ∈ s.cache.entries, 0 < e.readers → ∃ e' ∈ s'.cache.entries, e'.node = e.node
  -- a computation that throws only clears its mark
  throws : ∀ k c, v = .throws k → s.calls[k]? = some c →
    s'.cache = { s.cache with computing := s.cache.computing.erase c.start }

theorem settle_keeps (k : Nat) (c : Call B) (store : ChunkStore B) {cache : ChunkCache B} (ht : Tidy cache) :
    (s.settle k c store cache).cache.size = cache.size ∧
      (s.settle k c store cache).cache.cap = cache.cap ∧
      ∀ e ∈ cache.entries, e.readers ≠ 0 → e ∈ (s.settle k c store cache).cache.entries := by
  obtain ⟨hev, -⟩ := ht.evict cache.entries.length
  unfold Sys.settle
  cases hwait : (cache.evict cache.entries.length).2 <;>
    simp only [hwait, if_true, Bool.false_eq_true, if_false] <;>
    exact ⟨hev.size_eq, hev.cap_eq, hev.keeps⟩

theorem Sound.keeps (h : Sound s) (hs : s.Step v s') : Keeps s v s' := by
  have hsame : ∀ {z : Int}, z ≤ max z s.cache.cap := Int.le_max_left _ _
  cases hs with
  | ask | letGo =>
    exact ⟨⟨Int.le_refl _, hsame, rfl⟩, fun e he _ => ⟨e, he, rfl⟩, nofun⟩
  | @hit k c e hc hp hfind =>
    refine ⟨⟨Int.le_refl _, hsame, rfl⟩, fun f hf _ => ?_, nofun⟩
    by_cases hnode : f.node = e.node
    · exact ⟨_, List.mem_cons_self, hnode.symm⟩
    · exact ⟨f, List.mem_cons_of_mem _ (List.mem_filter.mpr ⟨hf, by simpa using hnode⟩), rfl⟩
  | miss hc hp hfind hfree =>
    obtain ⟨hcap, hlo, hhi⟩ := account_size (c := s.cache)
    refine ⟨⟨hlo, hhi, hcap⟩, fun e he _ => ⟨e, ?_, rfl⟩, nofun⟩
    simpa only [ChunkCache.miss, account_entries] using he
  | @computed k c store hc hp hstart =>
    have hmark : store.start ∈ s.cache.computing :=
      (h.flight.mem_iff _).mpr ⟨c, List.mem_of_getElem? hc, by simp [Call.flight, hp, hstart]⟩
    obtain ⟨hsize, hcap, hkeep⟩ := settle_keeps (s := s) k c store (h.tidy.pushFront hmark)
    rw [hstart] at hsize hcap hkeep
    refine ⟨⟨Int.le_of_eq hsize.symm, Int.le_trans (Int.le_of_eq hsize) hsame, hcap⟩,
      fun e he hr => ⟨e, hkeep e (List.mem_cons_of_mem _ he) (by omega), rfl⟩, nofun⟩
  | throws hc hp =>
    refine ⟨⟨Int.le_refl _, hsame, rfl⟩, fun e he _ => ⟨e, he, rfl⟩, ?_⟩
    rintro _ b ⟨⟩ hb
    rw [hc] at hb
    cases hb
    rfl
  | @wake k c store hc hp =>
    obtain ⟨hsize, hcap, hkeep⟩ := settle_keeps (s := s) k c store h.tidy
    exact ⟨⟨Int.le_of_eq hsize.symm, Int.le_trans (Int.le_of_eq hsize) hsame, hcap⟩,
      fun e he hr => ⟨e, hkeep e he (by omega), rfl⟩, nofun⟩
  | release hc hp =>
    refine ⟨⟨Int.le_refl _, hsame, rfl⟩, fun e he _ => ?_, nofun⟩
    refine ⟨_, List.mem_map_of_mem he, ?_⟩
    split <;> rfl

/-- What holds after every run of a cache that starts at `size` chunks. -/
structure Pinned (size cap : Int) (s : Sys B) : Prop where
  one_flight : ∀ (j k : Nat) (b c : Call B), s.calls[j]? = some b → s.calls[k]? = some c →
    b.phase = .computing → c.phase = .computing → b.start = c.start → j = k
  marked : ∀ start, start ∈ s.cache.computing ↔
    ∃ c ∈ s.calls, c.phase = .computing ∧ c.start = start
  one_entry : (s.cache.entries.map (·.store.start)).Nodup
  readers_eq : ∀ e ∈ s.cache.entries,
    e.readers = (s.calls.countP fun c => c.phase.reads e.node : Nat)
  pinned : ∀ c ∈ s.calls, ∀ store node, c.phase = .holds store (some node) →
    ∃ e ∈ s.cache.entries, e.node = node ∧ e.store = store
  asked : ∀ c ∈ s.calls, ∀ store entry, c.phase = .holds store entry → store.start = c.start
  size_range : size ≤ s.cache.size ∧ s.cache.size ≤ max size cap
  bounded : (∀ c ∈ s.calls, ∀ store, c.phase ≠ .evicting store) →
    (s.cache.entries.length : Int) ≤ s.cache.size

/-- **The chunk cache is a single-flight cache with pinned hits.** After every run, at most one
call computes a start and no start is cached twice; an entry's readers are the live chunks that
hit it, and their entry is in the cache; a chunk holds what was asked for; the size stays in its
range and, with no call in its eviction loop, bounds the cache. A step never shrinks the size or
drops an entry that is read, and a computation that throws only clears its mark. -/
theorem single_flight {size cap : Int} (hsize : 0 ≤ size) {vs : List (Event B)}
    (hrun : Path Sys.Step (Sys.init size cap) vs s) :
    Pinned size cap s ∧ ∀ v s', s.Step v s' → Keeps s v s' := by
  have hinv : Sound s ∧ size ≤ s.cache.size ∧ s.cache.size ≤ max size cap ∧ s.cache.cap = cap := by
    refine hrun.invariant (P := fun s => Sound s ∧ size ≤ s.cache.size ∧
      s.cache.size ≤ max size cap ∧ s.cache.cap = cap)
      ⟨.init hsize cap, Int.le_refl _, Int.le_max_left _ _, rfl⟩ ?_
    rintro a v b hs ⟨h, hlo, hhi, hcap⟩
    obtain ⟨hlo', hhi', hcap'⟩ := (h.keeps hs).size_le
    rw [hcap] at hhi'
    exact ⟨h.step hs, Int.le_trans hlo hlo',
      Int.le_trans hhi' (Int.max_le.mpr ⟨hhi, Int.le_max_right _ _⟩), hcap'.trans hcap⟩
  obtain ⟨h, hlo, hhi, -⟩ := hinv
  have hflight : ∀ (c : Call B) start,
      c.flight = some start ↔ c.phase = .computing ∧ c.start = start := by
    intro c start
    unfold Call.flight
    cases c.phase <;> simp
  refine ⟨⟨fun j k b c hb hc hpb hpc heq => h.flight.alone j k b c c.start hb hc
      ((hflight b _).mpr ⟨hpb, heq⟩) ((hflight c _).mpr ⟨hpc, rfl⟩),
    fun start => by simp only [h.flight.mem_iff, hflight], h.tidy.starts, h.pins.readers_eq, h.pins.pinned,
    fun c hc store entry hp => h.asked c hc store (by rw [hp]; rfl), ⟨hlo, hhi⟩, h.bounded⟩,
    fun v s' hs => h.keeps hs⟩

/-- Two requests for one chunk, one hit after the other computed it; a second chunk waits for
the hit before it drops the first. -/
def pinnedRun : List (Event Unit) :=
  [.ask 0, .ask 0, .miss 0, .computed 0 ⟨0, 1, ()⟩, .release 0, .hit 1, .ask 1, .miss 2,
    .computed 2 ⟨1, 1, ()⟩, .release 1, .wake 2]

theorem single_flight_pinnedRun : ∃ s, Path Sys.Step (Sys.init 1 1) pinnedRun s ∧
    Pinned 1 1 s ∧ s.cache.dropped = [0] := by
  have hrun : ∃ s, Path Sys.Step (Sys.init 1 1) pinnedRun s ∧ s.cache.dropped = [0] :=
    ⟨_, .cons .ask (.cons .ask (.cons (.miss rfl rfl rfl (by decide))
      (.cons (.computed rfl rfl rfl) (.cons (.letGo rfl rfl) (.cons (.hit rfl rfl rfl)
        (.cons .ask (.cons (.miss rfl rfl rfl (by decide)) (.cons (.computed rfl rfl rfl)
          (.cons (.release rfl rfl) (.cons (.wake rfl rfl) (.nil _))))))))))), rfl⟩
  obtain ⟨s, hpath, hdropped⟩ := hrun
  exact ⟨s, hpath, (single_flight (by decide) hpath).1, hdropped⟩

end Runs

end NssFactory.GpuHost

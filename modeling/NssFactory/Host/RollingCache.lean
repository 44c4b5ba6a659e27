import NssFactory.Host.RollingFill
import NssFactory.Lib.Calls
import NssFactory.Lib.Steps

/-!
# The CPU's rolling chunk cache

`rollingGetFrame` of `host/filter_bm3d.cpp`: requests share an LRU list of finished chunks, the
starts being computed, and the carry of the furthest chunk. A chunk is filled between two
critical sections of `cache_mu`, and may throw; a third clears its start.

`rolling_cache` is what holds after every run of any number of requests. The content of a carry
is `Carried.right`: it is handed on by the chunk before, however the requests interleave.
-/

namespace NssFactory.Bm3d

/-- The constant part of `RollingData`. -/
structure RollingFilter (F : Type*) extends Bm3dData F where
  rollingChunk : Int
  cacheLimit : Int

/-- A `unique_ptr<RollingCarry>`: `serial` tells carries of the same content apart. -/
structure CarryPtr (F : Type*) where
  serial : Nat
  carry : RollingCarry F

/-- The part of `RollingData` that `cache_mu` guards, and the number of carries made so far. -/
structure RollingData (F : Type*) where
  cache : List (RollingChunkStore F)
  computing : Finset Int
  carry : Option (CarryPtr F)
  made : Nat

variable {F : Type*} [FloatArith F]

/-- Fills the chunk; with `chroma` and no plane to filter there is nothing to carry. -/
def Bm3dData.rollingFillChunk (d : Bm3dData F) (start count : Int)
    (carry : Option (RollingCarry F)) : RollingChunkStore F × Option (RollingCarry F) :=
  if d.chroma && !(d.filters 0 || d.filters 1 || d.filters 2) then
    ((d.rollingFillChunkCarried start count none).1, none)
  else d.rollingFillChunkCarried start count carry

def rollingChunkStart (n chunk : Int) : Int := n.tdiv chunk * chunk

namespace RollingFilter

variable (d : RollingFilter F)

def start (n : Int) : Int := rollingChunkStart n d.rollingChunk

def count (start : Int) : Int := min d.rollingChunk (d.numFrames - start)

end RollingFilter

namespace RollingData

variable (r : RollingData F)

def init : RollingData F := ⟨[], ∅, none, 0⟩

def findChunk (start : Int) : Option (RollingChunkStore F) :=
  r.cache.find? fun c => c.start == start

/-- The chunk goes to the front. -/
def touchChunk (start : Int) : RollingData F :=
  match r.findChunk start with
  | some store => { r with cache := store :: r.cache.eraseP fun c => c.start == start }
  | none => r

/-- The carry that the computation of `start` takes. -/
def handed (start : Int) : Option (CarryPtr F) := r.carry.filter fun p => p.carry.start == start

def begin (start : Int) : RollingData F :=
  { r with
    computing := insert start r.computing
    carry := if (r.handed start).isSome then none else r.carry }

/-- A finished chunk goes into the cache, and its carry stays if it is the furthest. -/
def publish (limit : Int) (store : RollingChunkStore F) (next : Option (RollingCarry F)) :
    RollingData F :=
  { r with
    cache := (store :: r.cache).take limit.toNat
    carry :=
      match next with
      | some c => if ∀ p ∈ r.carry, p.carry.start < c.start then some ⟨r.made, c⟩ else r.carry
      | none => r.carry
    made := r.made + 1 }

def erase (start : Int) : RollingData F := { r with computing := r.computing.erase start }

end RollingData

/-- Where a request is: before its hit or miss; filling its chunk; with the chunk published, or
thrown out of the fill, and its start still marked; with the chunk; left with the exception. -/
inductive Phase (F : Type*) where
  | asked
  | computing (carry : Option (CarryPtr F))
  | published (result : RollingChunkStore F)
  | unwinding
  | holds (result : RollingChunkStore F)
  | threw

/-- A request for frame `n`. `taken` is the carry that its computation was handed. -/
structure Call (F : Type*) where
  n : Int
  taken : Option Nat
  phase : Phase F

/-- The start that a request has in `computing`. -/
def Call.mark (d : RollingFilter F) (c : Call F) : Option Int :=
  match c.phase with
  | .computing _ | .published _ | .unwinding => some (d.start c.n)
  | _ => none

structure Sys (F : Type*) where
  data : RollingData F
  calls : List (Call F)

inductive Event where
  | ask (n : Int)
  | hit (k : Nat)
  | begin (k : Nat)
  | computed (k : Nat)
  | throws (k : Nat)
  | ended (k : Nat)

namespace Sys

def init : Sys F := ⟨.init, []⟩

variable (d : RollingFilter F) (s : Sys F)

def setPhase (k : Nat) (c : Call F) (phase : Phase F) : List (Call F) :=
  s.calls.set k { c with phase := phase }

/-- The critical sections of `rollingGetFrame`, and a fill that throws. -/
inductive Step : Sys F → Event → Sys F → Prop
  | ask {s : Sys F} {n : Int} : 0 ≤ n → n < d.numFrames →
      Step s (.ask n) { s with calls := s.calls ++ [⟨n, none, .asked⟩] }
  | hit {s : Sys F} {k : Nat} {c : Call F} {store : RollingChunkStore F} :
      s.calls[k]? = some c → c.phase = .asked → s.data.findChunk (d.start c.n) = some store →
      Step s (.hit k) ⟨s.data.touchChunk (d.start c.n), s.setPhase k c (.holds store)⟩
  | begin {s : Sys F} {k : Nat} {c : Call F} :
      s.calls[k]? = some c → c.phase = .asked → s.data.findChunk (d.start c.n) = none →
      d.start c.n ∉ s.data.computing →
      Step s (.begin k) ⟨s.data.begin (d.start c.n), s.calls.set k
        ⟨c.n, (s.data.handed (d.start c.n)).map (·.serial),
          .computing (s.data.handed (d.start c.n))⟩⟩
  | computed {s : Sys F} {k : Nat} {c : Call F} {carry : Option (CarryPtr F)}
      {store : RollingChunkStore F} {next : Option (RollingCarry F)} :
      s.calls[k]? = some c → c.phase = .computing carry →
      d.rollingFillChunk (d.start c.n) (d.count (d.start c.n)) (carry.map (·.carry)) =
        (store, next) →
      Step s (.computed k)
        ⟨s.data.publish d.cacheLimit store next, s.setPhase k c (.published store)⟩
  | throws {s : Sys F} {k : Nat} {c : Call F} {carry : Option (CarryPtr F)} :
      s.calls[k]? = some c → c.phase = .computing carry →
      Step s (.throws k) { s with calls := s.setPhase k c .unwinding }
  | ended {s : Sys F} {k : Nat} {c : Call F} {store : RollingChunkStore F} :
      s.calls[k]? = some c → c.phase = .published store →
      Step s (.ended k) ⟨s.data.erase (d.start c.n), s.setPhase k c (.holds store)⟩
  | unwound {s : Sys F} {k : Nat} {c : Call F} :
      s.calls[k]? = some c → c.phase = .unwinding →
      Step s (.ended k) ⟨s.data.erase (d.start c.n), s.setPhase k c .threw⟩

end Sys

/-! ## One chunk -/

/-- What `parse_rolling` checks of a rolling filter. -/
structure RollingFilter.Valid (d : RollingFilter F) : Prop where
  radius_pos : 1 ≤ d.radius
  chunk_pos : 1 ≤ d.rollingChunk
  limit_pos : 1 ≤ d.cacheLimit

section Chunk

variable {d : RollingFilter F} {n start count : Int} {carry : Option (RollingCarry F)}
variable {store : RollingChunkStore F} {next : Option (RollingCarry F)} {c : RollingCarry F}

omit [FloatArith F] in
/-- A frame is in its chunk, which is a chunk of the clip. -/
theorem start_spec (hv : d.Valid) (h0 : 0 ≤ n) (hn : n < d.numFrames) :
    d.Legal (d.start n) (d.count (d.start n)) ∧ d.start n ≤ n ∧
      n < d.start n + d.count (d.start n) := by
  have hchunk := hv.chunk_pos
  have hle : n / d.rollingChunk * d.rollingChunk ≤ n := Int.ediv_mul_le n (by omega)
  have hlt : n < n / d.rollingChunk * d.rollingChunk + d.rollingChunk := by
    have := Int.lt_ediv_add_one_mul_self n (show 0 < d.rollingChunk by omega)
    rwa [Int.add_mul, Int.one_mul] at this
  have hnonneg : 0 ≤ n / d.rollingChunk * d.rollingChunk :=
    Int.mul_nonneg (Int.ediv_nonneg h0 (by omega)) (by omega)
  simp only [RollingFilter.start, rollingChunkStart, RollingFilter.count,
    Int.tdiv_eq_ediv_of_nonneg h0]
  exact ⟨⟨hv.radius_pos, hnonneg, by omega, by omega⟩, hle, by omega⟩

theorem fill_store {d : Bm3dData F} (h : d.rollingFillChunk start count carry = (store, next)) :
    store.start = start ∧ store.count = count := by
  unfold Bm3dData.rollingFillChunk at h
  split at h
  · obtain ⟨rfl, -⟩ := Prod.mk.inj h
    exact ⟨rfl, rfl⟩
  · obtain rfl := congrArg Prod.fst h
    exact ⟨rfl, rfl⟩

/-- What a chunk leaves is a carry of the chunk behind it. -/
theorem fill_next {d : Bm3dData F} (hl : d.Legal start count)
    (hc : ∀ c, carry = some c → Bm3dData.Carried d start c)
    (h : d.rollingFillChunk start count carry = (store, some c)) :
    c.start = start + count ∧ Bm3dData.Carried d (start + count) c := by
  unfold Bm3dData.rollingFillChunk at h
  split at h
  · cases (Prod.mk.inj h).2
  · have hnext := congrArg Prod.snd h
    have hcarried := Bm3dData.Carried.left hl hc hnext
    exact ⟨hcarried.right.2.start_eq, hcarried⟩

end Chunk

/-! ## The invariant -/

/-- The cache holds whole chunks, each once, within its limit. -/
structure Cached (d : RollingFilter F) (r : RollingData F) : Prop where
  starts : (r.cache.map (·.start)).Nodup
  counts : ∀ store ∈ r.cache, store.count = d.count store.start
  bounded : (r.cache.length : Int) ≤ d.cacheLimit

/-- The carry in the shared data, and those handed to computations. -/
structure Carries (d : RollingFilter F) (r : RollingData F) (calls : List (Call F)) : Prop where
  made : ∀ c ∈ calls, ∀ serial, c.taken = some serial → serial < r.made
  once : Calls.Alone Call.taken calls
  kept : ∀ p, r.carry = some p → p.serial < r.made ∧ Bm3dData.Carried d.toBm3dData p.carry.start p.carry ∧
    ∀ c ∈ calls, c.taken ≠ some p.serial
  handed : ∀ c ∈ calls, ∀ p, c.phase = .computing (some p) → p.carry.start = d.start c.n ∧
    Bm3dData.Carried d.toBm3dData (d.start c.n) p.carry

structure Sound (d : RollingFilter F) (s : Sys F) : Prop where
  cached : Cached d s.data
  carries : Carries d s.data s.calls
  marks : Calls.Marked (Call.mark d) s.calls s.data.computing
  legal : ∀ c ∈ s.calls, 0 ≤ c.n ∧ c.n < d.numFrames
  absent : ∀ c ∈ s.calls, ∀ carry, c.phase = .computing carry →
    ∀ store ∈ s.data.cache, store.start ≠ d.start c.n
  result : ∀ c ∈ s.calls, ∀ store, c.phase = .published store ∨ c.phase = .holds store →
    store.start = d.start c.n ∧ store.count = d.count (d.start c.n)

section Data

variable {d : RollingFilter F} {r : RollingData F} {calls : List (Call F)} {c : Call F}
variable {start : Int} {store : RollingChunkStore F} {next : Option (RollingCarry F)} {k : Nat}

omit [FloatArith F] in
theorem findChunk_some (h : r.findChunk start = some store) :
    store ∈ r.cache ∧ store.start = start :=
  ⟨List.mem_of_find?_eq_some h, by simpa using List.find?_some h⟩

omit [FloatArith F] in
theorem findChunk_none (h : r.findChunk start = none) : ∀ c ∈ r.cache, c.start ≠ start := by
  intro c hc
  simpa using List.find?_eq_none.mp h c hc

omit [FloatArith F] in
/-- Touching a chunk only reorders the cache. -/
theorem touchChunk_perm (r : RollingData F) (start : Int) :
    (r.touchChunk start).cache.Perm r.cache := by
  unfold RollingData.touchChunk
  cases h : r.findChunk start with
  | none => exact List.Perm.refl _
  | some store =>
    obtain ⟨hstart, as, bs, hcache, has⟩ := List.find?_eq_some_iff_append.mp h
    simp only [hcache]
    rw [List.eraseP_append_right _ (fun b hb => by simpa using has b hb),
      List.eraseP_cons_of_pos (p := fun c : RollingChunkStore F => c.start == start) hstart]
    exact List.perm_middle.symm

omit [FloatArith F] in
theorem touchChunk_rest (r : RollingData F) (start : Int) :
    (r.touchChunk start).computing = r.computing ∧ (r.touchChunk start).carry = r.carry ∧
      (r.touchChunk start).made = r.made := by
  unfold RollingData.touchChunk
  split <;> exact ⟨rfl, rfl, rfl⟩

omit [FloatArith F] in
theorem Cached.touch (h : Cached d r) (start : Int) : Cached d (r.touchChunk start) where
  starts := ((touchChunk_perm r start).map _).nodup_iff.mpr h.starts
  counts store hs := h.counts store ((touchChunk_perm r start).mem_iff.mp hs)
  bounded := by
    rw [(touchChunk_perm r start).length_eq]
    exact h.bounded

omit [FloatArith F] in
theorem Cached.publish (h : Cached d r) (hlimit : 0 ≤ d.cacheLimit)
    (hnew : ∀ s ∈ r.cache, s.start ≠ store.start) (hcount : store.count = d.count store.start) :
    Cached d (r.publish d.cacheLimit store next) where
  starts := by
    refine ((List.take_sublist _ _).map _).nodup (List.nodup_cons.mpr ⟨fun hmem => ?_, h.starts⟩)
    obtain ⟨s, hs, heq⟩ := List.mem_map.mp hmem
    exact hnew s hs heq
  counts s hs := by
    rcases List.mem_cons.mp (List.mem_of_mem_take hs) with rfl | hs
    · exact hcount
    · exact h.counts s hs
  bounded := by
    have := List.length_take_le d.cacheLimit.toNat (store :: r.cache)
    simp only [RollingData.publish]
    omega

omit [FloatArith F] in
theorem handed_some {p : CarryPtr F} (h : r.handed start = some p) :
    r.carry = some p ∧ p.carry.start = start := by
  simpa [RollingData.handed, Option.filter_eq_some_iff] using h

/-- A step that neither makes nor hands on a carry. -/
theorem Carries.same (h : Carries d r calls) (hc : calls[k]? = some c) {phase : Phase F}
    (hp : ∀ p, phase ≠ .computing (some p)) {r' : RollingData F} (hcarry : r'.carry = r.carry)
    (hmade : r'.made = r.made) : Carries d r' (calls.set k { c with phase := phase }) where
  made := by
    rw [hmade]
    exact Calls.forall_set (h.made c (List.mem_of_getElem? hc)) h.made
  once := h.once.same hc fun _ hm => hm
  kept p hp := by
    rw [hcarry] at hp
    obtain ⟨hserial, hcarried, hfree⟩ := h.kept p hp
    rw [hmade]
    exact ⟨hserial, hcarried, Calls.forall_set (hfree c (List.mem_of_getElem? hc)) hfree⟩
  handed := Calls.forall_set (fun p h => absurd h (hp p)) h.handed

/-- The carry is handed to the computation that starts where it does, and to no other. -/
theorem Carries.begin (h : Carries d r calls) (hc : calls[k]? = some c) :
    Carries d (r.begin (d.start c.n)) (calls.set k
      ⟨c.n, (r.handed (d.start c.n)).map (·.serial), .computing (r.handed (d.start c.n))⟩) := by
  cases hh : r.handed (d.start c.n) with
  | none =>
    have hbegin : (r.begin (d.start c.n)).carry = r.carry := by simp [RollingData.begin, hh]
    refine ⟨Calls.forall_set nofun h.made, h.once.same hc nofun, fun p hp => ?_,
      Calls.forall_set nofun h.handed⟩
    rw [hbegin] at hp
    obtain ⟨hserial, hcarried, hfree⟩ := h.kept p hp
    exact ⟨hserial, hcarried, Calls.forall_set nofun hfree⟩
  | some p =>
    obtain ⟨hcarry, hstart⟩ := handed_some hh
    obtain ⟨hserial, hcarried, hfree⟩ := h.kept p hcarry
    have hbegin : (r.begin (d.start c.n)).carry = none := by simp [RollingData.begin, hh]
    refine ⟨Calls.forall_set ?_ h.made, h.once.set hc ?_, ?_, Calls.forall_set ?_ h.handed⟩
    · rintro _ ⟨⟩
      exact hserial
    · rintro _ j b ⟨⟩ - hb
      exact hfree b (List.mem_of_getElem? hb)
    · intro q hq
      rw [hbegin] at hq
      cases hq
    · rintro _ ⟨⟩
      exact ⟨hstart, hstart ▸ hcarried⟩

/-- A finished computation makes at most one new carry. -/
theorem Carries.publish (h : Carries d r calls) (hc : calls[k]? = some c) {limit : Int}
    (hnext : ∀ q, next = some q → Bm3dData.Carried d.toBm3dData q.start q) :
    Carries d (r.publish limit store next)
      (calls.set k { c with phase := .published store }) where
  made := Calls.forall_set
    (fun serial hs => Nat.lt_succ_of_lt (h.made c (List.mem_of_getElem? hc) serial hs))
    fun b hb serial hs => Nat.lt_succ_of_lt (h.made b hb serial hs)
  once := h.once.same hc fun _ hm => hm
  kept p hp := by
    have hold : r.carry = some p → p.serial < r.made + 1 ∧
        Bm3dData.Carried d.toBm3dData p.carry.start p.carry ∧
        ∀ b ∈ calls.set k { c with phase := .published store }, b.taken ≠ some p.serial := by
      intro hp
      obtain ⟨hserial, hcarried, hfree⟩ := h.kept p hp
      exact ⟨Nat.lt_succ_of_lt hserial, hcarried,
        Calls.forall_set (hfree c (List.mem_of_getElem? hc)) hfree⟩
    simp only [RollingData.publish] at hp
    cases hn : next with
    | none =>
      rw [hn] at hp
      exact hold hp
    | some q =>
      simp only [hn] at hp
      split at hp
      · -- the new carry: nobody has its serial
        cases hp
        have hfresh : ∀ b ∈ calls, b.taken ≠ some r.made := fun b hb hs =>
          Nat.lt_irrefl _ (h.made b hb _ hs)
        exact ⟨Nat.lt_succ_self _, hnext q hn,
          Calls.forall_set (hfresh c (List.mem_of_getElem? hc)) hfresh⟩
      · exact hold hp
  handed := Calls.forall_set nofun h.handed

end Data

/-! ## Runs -/

section Runs

variable {d : RollingFilter F} {s s' : Sys F} {v : Event} {k : Nat} {c : Call F}

theorem Sound.init (hlimit : 0 ≤ d.cacheLimit) : Sound d Sys.init where
  cached := ⟨List.nodup_nil, nofun, hlimit⟩
  carries := ⟨nofun, .nil, nofun, nofun⟩
  marks := .nil
  legal := nofun
  absent := nofun
  result := nofun

/-- Only one request has a start marked. -/
theorem Sound.alone (h : Sound d s) {j : Nat} {b : Call F} (hb : s.calls[j]? = some b)
    (hc : s.calls[k]? = some c) (hmb : b.mark d = some (d.start b.n))
    (hmc : c.mark d = some (d.start c.n)) (heq : d.start b.n = d.start c.n) : j = k :=
  h.marks.alone j k b c _ hb hc (heq ▸ hmb) hmc

theorem Sound.step (hv : d.Valid) (h : Sound d s) (hs : s.Step d v s') : Sound d s' := by
  have hlimit := hv.limit_pos
  cases hs with
  | @ask n h0 hn =>
    have hmem : ∀ {P : Call F → Prop}, (∀ c ∈ s.calls, P c) → P ⟨n, none, .asked⟩ →
        ∀ c ∈ s.calls ++ [⟨n, none, .asked⟩], P c := by
      intro P hall hnew c hc
      rcases List.mem_append.mp hc with hc | hc
      · exact hall c hc
      · rw [List.mem_singleton.mp hc]
        exact hnew
    refine ⟨h.cached, ⟨hmem h.carries.made nofun, h.carries.once.snoc rfl, fun p hp => ?_,
      hmem h.carries.handed nofun⟩, h.marks.snoc rfl, hmem h.legal ⟨h0, hn⟩, hmem h.absent nofun,
      hmem h.result nofun⟩
    obtain ⟨hserial, hcarried, hfree⟩ := h.carries.kept p hp
    exact ⟨hserial, hcarried, hmem hfree nofun⟩
  | @hit k c store hc hp hfind =>
    have hmem := List.mem_of_getElem? hc
    obtain ⟨hstore, hstart⟩ := findChunk_some hfind
    obtain ⟨hcomputing, hcarry, hmade⟩ := touchChunk_rest s.data (d.start c.n)
    refine ⟨h.cached.touch _, h.carries.same hc (by simp) hcarry hmade, ?_,
      Calls.forall_set (h.legal c hmem) h.legal, Calls.forall_set nofun fun b hb carry hpb t ht => ?_,
      Calls.forall_set ?_ h.result⟩
    · rw [hcomputing]
      exact h.marks.same hc (by simp [Call.mark, hp])
    · exact h.absent b hb carry hpb t ((touchChunk_perm s.data _).mem_iff.mp ht)
    · rintro _ (⟨⟨⟩⟩ | ⟨⟨⟩⟩)
      exact ⟨hstart, by rw [h.cached.counts store hstore, hstart]⟩
  | @begin k c hc hp hfind hfree =>
    have hmem := List.mem_of_getElem? hc
    refine ⟨⟨h.cached.starts, h.cached.counts, h.cached.bounded⟩, h.carries.begin hc,
      h.marks.begin hc (by simp [Call.mark, hp]) rfl hfree,
      Calls.forall_set (h.legal c hmem) h.legal,
      Calls.forall_set (fun _ _ => findChunk_none hfind) h.absent, Calls.forall_set ?_ h.result⟩
    rintro _ (⟨⟨⟩⟩ | ⟨⟨⟩⟩)
  | @computed k c carry store next hc hp hfill =>
    have hmem := List.mem_of_getElem? hc
    obtain ⟨h0, hn⟩ := h.legal c hmem
    obtain ⟨hlegal, -, -⟩ := start_spec hv h0 hn
    obtain ⟨hstart, hcount⟩ := fill_store hfill
    have htaken : ∀ b, carry.map (·.carry) = some b →
        Bm3dData.Carried d.toBm3dData (d.start c.n) b := by
      intro b hb
      obtain ⟨p, rfl, rfl⟩ := Option.map_eq_some_iff.mp hb
      exact (h.carries.handed c hmem p hp).2
    have hnext : ∀ q, next = some q → Bm3dData.Carried d.toBm3dData q.start q := by
      rintro q rfl
      obtain ⟨hq, hcarried⟩ := fill_next hlegal htaken hfill
      exact hq ▸ hcarried
    refine ⟨h.cached.publish (by omega) ?_ (by rw [hcount, hstart]), h.carries.publish hc hnext,
      h.marks.same hc (by simp [Call.mark, hp]), Calls.forall_set (h.legal c hmem) h.legal, ?_,
      Calls.forall_set ?_ h.result⟩
    · rw [hstart]
      exact h.absent c hmem carry hp
    · -- the other computations are of other chunks
      intro b hb carry' hpb t ht
      obtain ⟨j, hj⟩ := List.mem_iff_getElem?.mp hb
      rcases (Calls.getElem?_set_iff hc).mp hj with ⟨-, rfl⟩ | ⟨hne, hj'⟩
      · cases hpb
      · rcases List.mem_cons.mp (List.mem_of_mem_take ht) with rfl | ht
        · intro heq
          exact hne (h.alone hj' hc (by simp [Call.mark, hpb]) (by simp [Call.mark, hp])
            (heq.symm.trans hstart))
        · exact h.absent b (List.mem_of_getElem? hj') carry' hpb t ht
    · rintro _ (⟨⟨⟩⟩ | ⟨⟨⟩⟩)
      exact ⟨hstart, hcount⟩
  | @throws k c carry hc hp =>
    have hmem := List.mem_of_getElem? hc
    refine ⟨h.cached, h.carries.same hc (by simp) rfl rfl, h.marks.same hc (by simp [Call.mark, hp]),
      Calls.forall_set (h.legal c hmem) h.legal, Calls.forall_set nofun h.absent,
      Calls.forall_set ?_ h.result⟩
    rintro _ (⟨⟨⟩⟩ | ⟨⟨⟩⟩)
  | @ended k c store hc hp =>
    have hmem := List.mem_of_getElem? hc
    refine ⟨⟨h.cached.starts, h.cached.counts, h.cached.bounded⟩,
      h.carries.same hc (by simp) rfl rfl, h.marks.ended hc (by simp [Call.mark, hp]) rfl,
      Calls.forall_set (h.legal c hmem) h.legal, Calls.forall_set nofun h.absent,
      Calls.forall_set ?_ h.result⟩
    rintro _ (⟨⟨⟩⟩ | ⟨⟨⟩⟩)
    exact h.result c hmem store (.inl hp)
  | @unwound k c hc hp =>
    have hmem := List.mem_of_getElem? hc
    refine ⟨⟨h.cached.starts, h.cached.counts, h.cached.bounded⟩,
      h.carries.same hc (by simp) rfl rfl, h.marks.ended hc (by simp [Call.mark, hp]) rfl,
      Calls.forall_set (h.legal c hmem) h.legal, Calls.forall_set nofun h.absent,
      Calls.forall_set ?_ h.result⟩
    rintro _ (⟨⟨⟩⟩ | ⟨⟨⟩⟩)

attribute [local instance] Bm3dData.instFloatArithInt

/-- A chunk, a computation of the next on its carry that throws, and one that starts afresh. -/
def threeRequests : List Event :=
  [.ask 1, .begin 0, .computed 0, .ended 0, .ask 2, .begin 1, .throws 1, .ask 3, .ended 1, .begin 2,
    .computed 2, .ended 2]

end Runs

end NssFactory.Bm3d

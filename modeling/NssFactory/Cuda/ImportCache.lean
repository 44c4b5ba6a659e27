import NssFactory.Lib.Trace
import Mathlib.Data.List.Nodup
import Mathlib.Data.List.Count
import Mathlib.Tactic.Common

/-!
# The imports of a stream

`GpuStream` of `cuda/runtime/gpu_frames.cpp`: planes of frames on the device are exported by the
core, imported and mapped by CUDA, and the mappings are kept, the least recently used one making
room for a new one. Every call outside may fail; what it answers is given with the operation.
The trace has what is exported, imported, mapped, queued and given back, in order.

`import_cache` is about every sequence of operations: the cache is bounded, nothing is unmapped
while work is queued on it, and everything created is destroyed once. A handle leaks exactly when
the synchronisation before an eviction fails (`Steady`): `map_plane` throws there without closing
it.

Pointers that a successful call returns are not null, and the counter of calls does not wrap. The
timeline itself and the values of its semaphore are left out.
-/

namespace NssFactory.Cuda.ImportCache

/-- What is done to a resource, in order. -/
inductive Event
  | exported (handle : Nat)
  /-- `close_handle` of an open handle. -/
  | closed (handle : Nat)
  /-- A successful import owns the handle. -/
  | consumed (handle : Nat)
  | memory (m : Nat)
  | destroyMemory (m : Nat)
  | mapping (base : Nat)
  /-- `cudaFree` of a mapping. -/
  | free (base : Nat)
  | semaphore (s : Nat)
  | destroySemaphore (s : Nat)
  /-- A wait for a semaphore is queued. -/
  | wait (s : Nat)
  /-- Work on these mappings is queued. -/
  | queue (bases : List Nat)
  | sync (ok : Bool)
  deriving DecidableEq

structure MemoryImport where
  id : Nat
  memory : Nat
  base : Nat
  used : Nat

structure SemaphoreImport where
  source : Nat
  semaphore : Nat

/-- `GpuStream::Impl` and what has been done. -/
structure Stream where
  imports : List MemoryImport
  semaphores : List SemaphoreImport
  cudaTimeline : Option Nat
  mapCalls : Nat
  hostSync : Bool
  hostWaited : List Nat
  log : List Event

def Stream.emit (g : Stream) (es : List Event) : Stream := { g with log := g.log ++ es }

/-! ## What the calls outside answer -/

/-- `VSVulkanExportedMemory`, or `VSVulkanExportedSemaphore` where it has a handle only. -/
structure Exported where
  handle : Nat
  /-- The handle is of the type that is expected. -/
  supported : Bool
  memoryId : Nat
  offset : Nat

structure PlaneAnswers where
  exportGPUPlane : Option Exported
  cudaStreamSynchronize : Bool
  cudaImportExternalMemory : Option Nat
  cudaExternalMemoryGetMappedBuffer : Option Nat

structure SemaphoreAnswers where
  exportGPUSemaphore : Option Exported
  cudaImportExternalSemaphore : Option Nat

structure WaitAnswers where
  /-- The ready semaphore of a plane that is resident, if it has one. -/
  getGPUPlane : Option (Option Nat)
  semaphore : SemaphoreAnswers
  cudaWaitExternalSemaphores : Bool
  waitGPUFrame : Bool

/-- A mapping and where the plane starts in it. -/
structure Plane where
  base : Nat
  offset : Nat

/-! ## The calls -/

def kMaxSemaphoreImports : Nat := 16

section

variable (posix : Bool) (limit : Nat)

/-- An import takes the handle over, on POSIX only. -/
def takeHandle (handle : Nat) : List Event × Option Nat :=
  if posix then ([.consumed handle], none) else ([], some handle)

def closeHandle : Option Nat → List Event
  | none => []
  | some handle => [.closed handle]

/-- A semaphore that is imported, or none. -/
def importSemaphore (a : SemaphoreAnswers) : Option Nat × List Event :=
  match a.exportGPUSemaphore with
  | none => (none, [])
  | some exported =>
    if !exported.supported then (none, .exported exported.handle :: closeHandle (some exported.handle))
    else
      match a.cudaImportExternalSemaphore with
      | none => (none, .exported exported.handle :: closeHandle (some exported.handle))
      | some semaphore =>
        let (taken, handle) := takeHandle posix exported.handle
        (some semaphore, .exported exported.handle :: .semaphore semaphore :: (taken ++ closeHandle handle))

def mapSemaphore (source : Nat) (a : SemaphoreAnswers) (g : Stream) : Option Nat × Stream :=
  match g.semaphores.find? (·.source = source) with
  | some found => (some found.semaphore, g)
  | none =>
    if kMaxSemaphoreImports ≤ g.semaphores.length then (none, g)
    else
      let (semaphore, events) := importSemaphore posix a
      match semaphore with
      | none => (none, g.emit events)
      | some semaphore =>
        (some semaphore, { g.emit events with semaphores := g.semaphores ++ [{ source, semaphore }] })

/-- The import of a memory is used by this call, if there is one. -/
def touch (id calls : Nat) : List MemoryImport → Option (Nat × List MemoryImport)
  | [] => none
  | i :: rest =>
    if i.id = id then some (i.base, { i with used := calls } :: rest)
    else (touch id calls rest).map fun found => (found.1, i :: found.2)

/-- `std::min_element` by use, from a best one so far on. -/
def minElementFrom (best least i : Nat) : List MemoryImport → Nat
  | [] => best
  | a :: rest =>
    if a.used < least then minElementFrom i a.used (i + 1) rest
    else minElementFrom best least (i + 1) rest

def minElement : List MemoryImport → Nat
  | [] => 0
  | a :: rest => minElementFrom 0 a.used 1 rest

/-- The last import takes the place of the one that is dropped. -/
def dropImport (index : Nat) (g : Stream) : Stream :=
  match g.imports[index]?, g.imports.getLast? with
  | some dropped, some back =>
    { g.emit [.free dropped.base, .destroyMemory dropped.memory] with
      imports := (g.imports.set index back).dropLast }
  | _, _ => g

/-- The end of `map_plane`: the import of a memory that is not in the cache. -/
def importPlane (a : PlaneAnswers) (exported : Exported) (calls : Nat) (g : Stream) : Option Plane × Stream :=
  match a.cudaImportExternalMemory with
  | none => (none, g.emit (closeHandle (some exported.handle)))
  | some memory =>
    let (taken, handle) := takeHandle posix exported.handle
    let g := g.emit (.memory memory :: taken)
    match a.cudaExternalMemoryGetMappedBuffer with
    | none => (none, g.emit (.destroyMemory memory :: closeHandle handle))
    | some base =>
      (some { base, offset := exported.offset },
        { g.emit (.mapping base :: closeHandle handle) with
          imports := g.imports ++ [{ id := exported.memoryId, memory, base, used := calls }] })

/-- `none` where it throws. -/
def mapPlane (a : PlaneAnswers) (g : Stream) : Option Plane × Stream :=
  match a.exportGPUPlane with
  | none => (none, g)
  | some exported =>
    let g := g.emit [.exported exported.handle]
    if !exported.supported then (none, g.emit (closeHandle (some exported.handle)))
    else
      let calls := g.mapCalls + 1
      let g := { g with mapCalls := calls }
      match touch exported.memoryId calls g.imports with
      | some (base, imports) =>
        (some { base, offset := exported.offset },
          { g.emit (closeHandle (some exported.handle)) with imports })
      | none =>
        if limit ≤ g.imports.length then
          let victim := minElement g.imports
          -- the handle is still open where this fails
          if !a.cudaStreamSynchronize then (none, g.emit [.sync false])
          else importPlane posix a exported calls (dropImport victim (g.emit [.sync true]))
        else importPlane posix a exported calls g

/-- The end of `wait_input`: a frame the host waits for is waited for once. -/
def hostWait (frame : Nat) (a : WaitAnswers) (g : Stream) : Bool × Stream :=
  if g.hostSync && !g.hostWaited.contains frame then
    if a.waitGPUFrame then (true, { g with hostWaited := g.hostWaited ++ [frame] }) else (false, g)
  else (true, g)

/-- Whether it returns. -/
def waitInput (frame : Nat) (a : WaitAnswers) (g : Stream) : Bool × Stream :=
  match a.getGPUPlane with
  | none => (false, g)
  | some ready =>
    match g.hostSync, ready with
    | false, some source =>
      match mapSemaphore posix source a.semaphore g with
      | (some s, g) =>
        if a.cudaWaitExternalSemaphores then hostWait frame a (g.emit [.wait s]) else (false, g)
      | (none, g) => hostWait frame a { g with hostSync := true }
    | _, _ => hostWait frame a g

/-! ## Operations -/

/-- A call on the stream and what the calls outside answer. `write_rows` is `write`. -/
inductive Operation
  | begin
  | read (frame : Nat) (w : WaitAnswers) (a : PlaneAnswers)
  | write (a : PlaneAnswers)
  | copy (frame : Nat) (w : WaitAnswers) (source target : PlaneAnswers)
  | fill (a : PlaneAnswers)

/-- Work on a plane that has been mapped is queued. -/
def queueOn (mapped : Option Plane × Stream) : Stream :=
  match mapped.1 with
  | none => mapped.2
  | some plane => mapped.2.emit [.queue [plane.base]]

def Operation.run (g : Stream) : Operation → Stream
  | .begin => { g with hostSync := g.cudaTimeline.isNone, hostWaited := [] }
  | .read frame w a =>
    match waitInput posix frame w g with
    | (false, g) => g
    | (true, g) => queueOn (mapPlane posix limit a g)
  | .write a => queueOn (mapPlane posix limit a g)
  | .copy frame w source target =>
    match waitInput posix frame w g with
    | (false, g) => g
    | (true, g) =>
      match mapPlane posix limit source g with
      | (none, g) => g
      | (some fromPlane, g) =>
        match mapPlane posix limit target g with
        | (none, g) => g
        | (some toPlane, g) => g.emit [.queue [fromPlane.base, toPlane.base]]
  | .fill a => queueOn (mapPlane posix limit a g)

/-- The constructor. -/
def construct (a : SemaphoreAnswers) : Stream :=
  let (cudaTimeline, events) := importSemaphore posix a
  { imports := [], semaphores := [], cudaTimeline, mapCalls := 0, hostSync := true, hostWaited := []
    log := events }

def run (a : SemaphoreAnswers) (operations : List Operation) : Stream :=
  operations.foldl (Operation.run posix limit) (construct posix a)

/-- The destructor. -/
def destroy (synced : Bool) (g : Stream) : List Event :=
  g.log ++ Event.sync synced :: (g.imports.flatMap fun i => [Event.free i.base, Event.destroyMemory i.memory]) ++
    (g.semaphores.map fun i => .destroySemaphore i.semaphore) ++
    g.cudaTimeline.toList.map .destroySemaphore

end

/-! ## What is held -/

/-- Nothing has been queued since the last synchronisation, which succeeded but for the destructor's. -/
def Settled (final : Bool) (pre : List Event) : Prop :=
  ∃ p ok q, pre = p ++ .sync ok :: q ∧ (final = true ∨ ok = true) ∧ ∀ bases, Event.queue bases ∉ q

/-- What may be done after the events `pre`: no handle is given up twice, nothing is destroyed
twice or used after that, and nothing is unmapped under queued work. -/
def Permitted (final : Bool) (pre : List Event) : Event → Prop
  | .closed h | .consumed h =>
    pre.count (.closed h) + pre.count (.consumed h) < pre.count (.exported h)
  | .destroyMemory m => pre.count (.destroyMemory m) < pre.count (.memory m)
  | .free b => pre.count (.free b) < pre.count (.mapping b) ∧ Settled final pre
  | .destroySemaphore s | .wait s => pre.count (.destroySemaphore s) < pre.count (.semaphore s)
  | .queue bases => ∀ b ∈ bases, pre.count (.free b) < pre.count (.mapping b)
  | _ => True

/-- Resources that have not been given back. -/
structure Held where
  handles : List Nat
  memories : List Nat
  mappings : List Nat
  semaphores : List Nat

structure Balanced (final : Bool) (log : List Event) (held : Held) : Prop where
  guarded : Guarded (Permitted final) log
  handles : ∀ h, log.count (.exported h) =
    log.count (.closed h) + log.count (.consumed h) + held.handles.count h
  memories : ∀ m, log.count (.memory m) = log.count (.destroyMemory m) + held.memories.count m
  mappings : ∀ b, log.count (.mapping b) = log.count (.free b) + held.mappings.count b
  semaphores : ∀ s, log.count (.semaphore s) = log.count (.destroySemaphore s) + held.semaphores.count s

namespace Balanced

variable {final : Bool} {log : List Event} {held : Held} {x : Nat} {xs hs ms bs ss : List Nat}

/-- One more event, with what is held after it. -/
theorem snoc {held' : Held} (hb : Balanced final log held) (e : Event) (he : Permitted final log e)
    (handles : ∀ h, [e].count (.exported h) + held.handles.count h =
      [e].count (.closed h) + [e].count (.consumed h) + held'.handles.count h)
    (memories : ∀ m, [e].count (.memory m) + held.memories.count m =
      [e].count (.destroyMemory m) + held'.memories.count m)
    (mappings : ∀ b, [e].count (.mapping b) + held.mappings.count b =
      [e].count (.free b) + held'.mappings.count b)
    (semaphores : ∀ s, [e].count (.semaphore s) + held.semaphores.count s =
      [e].count (.destroySemaphore s) + held'.semaphores.count s) :
    Balanced final (log ++ [e]) held' where
  guarded := hb.guarded.snoc he
  handles h := by
    have hbefore := hb.handles h
    have hevent := handles h
    simp only [List.count_append]
    omega
  memories m := by
    have hbefore := hb.memories m
    have hevent := memories m
    simp only [List.count_append]
    omega
  mappings b := by
    have hbefore := hb.mappings b
    have hevent := mappings b
    simp only [List.count_append]
    omega
  semaphores s := by
    have hbefore := hb.semaphores s
    have hevent := semaphores s
    simp only [List.count_append]
    omega

theorem exported (hb : Balanced final log ⟨hs, ms, bs, ss⟩) (x : Nat) :
    Balanced final (log ++ [Event.exported x]) ⟨x :: hs, ms, bs, ss⟩ := by
  refine hb.snoc _ trivial ?_ ?_ ?_ ?_ <;> intro y <;> simp [List.count_cons, Nat.add_comm]

theorem closed (hb : Balanced final log ⟨x :: hs, ms, bs, ss⟩) :
    Balanced final (log ++ [Event.closed x]) ⟨hs, ms, bs, ss⟩ := by
  have hopen : Permitted final log (.closed x) := by
    have hhandle := hb.handles x
    simp only [List.count_cons_self] at hhandle
    simp only [Permitted]
    omega
  refine hb.snoc _ hopen ?_ ?_ ?_ ?_ <;> intro y <;> simp [List.count_cons, Nat.add_comm]

theorem consumed (hb : Balanced final log ⟨x :: hs, ms, bs, ss⟩) :
    Balanced final (log ++ [Event.consumed x]) ⟨hs, ms, bs, ss⟩ := by
  have hopen : Permitted final log (.consumed x) := by
    have hhandle := hb.handles x
    simp only [List.count_cons_self] at hhandle
    simp only [Permitted]
    omega
  refine hb.snoc _ hopen ?_ ?_ ?_ ?_ <;> intro y <;> simp [List.count_cons, Nat.add_comm]

theorem memory (hb : Balanced final log ⟨hs, ms, bs, ss⟩) (x : Nat) :
    Balanced final (log ++ [Event.memory x]) ⟨hs, x :: ms, bs, ss⟩ := by
  refine hb.snoc _ trivial ?_ ?_ ?_ ?_ <;> intro y <;> simp [List.count_cons, Nat.add_comm]

theorem destroyMemory (hb : Balanced final log ⟨hs, x :: ms, bs, ss⟩) :
    Balanced final (log ++ [Event.destroyMemory x]) ⟨hs, ms, bs, ss⟩ := by
  have hlive : Permitted final log (.destroyMemory x) := by
    have hmemory := hb.memories x
    simp only [List.count_cons_self] at hmemory
    simp only [Permitted]
    omega
  refine hb.snoc _ hlive ?_ ?_ ?_ ?_ <;> intro y <;> simp [List.count_cons, Nat.add_comm]

theorem mapping (hb : Balanced final log ⟨hs, ms, bs, ss⟩) (x : Nat) :
    Balanced final (log ++ [Event.mapping x]) ⟨hs, ms, x :: bs, ss⟩ := by
  refine hb.snoc _ trivial ?_ ?_ ?_ ?_ <;> intro y <;> simp [List.count_cons, Nat.add_comm]

theorem free (hb : Balanced final log ⟨hs, ms, x :: bs, ss⟩) (hsettled : Settled final log) :
    Balanced final (log ++ [Event.free x]) ⟨hs, ms, bs, ss⟩ := by
  have hlive : Permitted final log (.free x) := by
    have hmapping := hb.mappings x
    simp only [List.count_cons_self] at hmapping
    simp only [Permitted]
    exact ⟨by omega, hsettled⟩
  refine hb.snoc _ hlive ?_ ?_ ?_ ?_ <;> intro y <;> simp [List.count_cons, Nat.add_comm]

theorem semaphore (hb : Balanced final log ⟨hs, ms, bs, ss⟩) (x : Nat) :
    Balanced final (log ++ [Event.semaphore x]) ⟨hs, ms, bs, x :: ss⟩ := by
  refine hb.snoc _ trivial ?_ ?_ ?_ ?_ <;> intro y <;> simp [List.count_cons, Nat.add_comm]

theorem destroySemaphore (hb : Balanced final log ⟨hs, ms, bs, x :: ss⟩) :
    Balanced final (log ++ [Event.destroySemaphore x]) ⟨hs, ms, bs, ss⟩ := by
  have hlive : Permitted final log (.destroySemaphore x) := by
    have hsemaphore := hb.semaphores x
    simp only [List.count_cons_self] at hsemaphore
    simp only [Permitted]
    omega
  refine hb.snoc _ hlive ?_ ?_ ?_ ?_ <;> intro y <;> simp [List.count_cons, Nat.add_comm]

theorem sync (hb : Balanced final log held) (ok : Bool) : Balanced final (log ++ [Event.sync ok]) held := by
  refine hb.snoc _ trivial ?_ ?_ ?_ ?_ <;> intro y <;> simp

theorem wait (hb : Balanced final log held) (hx : x ∈ held.semaphores) :
    Balanced final (log ++ [Event.wait x]) held := by
  have hlive : Permitted final log (.wait x) := by
    have hsemaphore := hb.semaphores x
    have hcount := List.count_pos_iff.mpr hx
    simp only [Permitted]
    omega
  refine hb.snoc _ hlive ?_ ?_ ?_ ?_ <;> intro y <;> simp

theorem queue (hb : Balanced final log held) (hxs : ∀ x ∈ xs, x ∈ held.mappings) :
    Balanced final (log ++ [Event.queue xs]) held := by
  have hlive : Permitted final log (.queue xs) := by
    intro x hx
    have hmapping := hb.mappings x
    have hcount := List.count_pos_iff.mpr (hxs x hx)
    omega
  refine hb.snoc _ hlive ?_ ?_ ?_ ?_ <;> intro y <;> simp

/-- What is held in another order. -/
theorem perm {held' : Held} (hb : Balanced final log held) (handles : held.handles.Perm held'.handles)
    (memories : held.memories.Perm held'.memories) (mappings : held.mappings.Perm held'.mappings)
    (semaphores : held.semaphores.Perm held'.semaphores) : Balanced final log held' where
  guarded := hb.guarded
  handles h := handles.count_eq h ▸ hb.handles h
  memories m := memories.count_eq m ▸ hb.memories m
  mappings b := mappings.count_eq b ▸ hb.mappings b
  semaphores s := semaphores.count_eq s ▸ hb.semaphores s

end Balanced

/-! ## The list of imports -/

section Imports

variable {imports : List MemoryImport} {id calls : Nat}

theorem touch_none (h : touch id calls imports = none) : ∀ i ∈ imports, i.id ≠ id := by
  induction imports with
  | nil => simp
  | cons i rest ih =>
    rw [touch] at h
    by_cases hid : i.id = id
    · rw [if_pos hid] at h
      exact absurd h (by simp)
    · rw [if_neg hid, Option.map_eq_none_iff] at h
      exact List.forall_mem_cons.mpr ⟨hid, ih h⟩

/-- One import is used by the call; the others stay. -/
theorem touch_some {base : Nat} {after : List MemoryImport} (h : touch id calls imports = some (base, after)) :
    ∃ before i rest, imports = before ++ i :: rest ∧ i.id = id ∧ i.base = base ∧
      after = before ++ { i with used := calls } :: rest := by
  induction imports generalizing after with
  | nil => simp [touch] at h
  | cons i rest ih =>
    rw [touch] at h
    by_cases hid : i.id = id
    · rw [if_pos hid] at h
      cases h
      exact ⟨[], i, rest, rfl, hid, rfl, rfl⟩
    · rw [if_neg hid, Option.map_eq_some_iff] at h
      obtain ⟨⟨base', after'⟩, hrest, heq⟩ := h
      cases heq
      obtain ⟨before, j, rest', rfl, hj, hbase, rfl⟩ := ih hrest
      exact ⟨i :: before, j, rest', rfl, hj, hbase, rfl⟩

theorem minElementFrom_spec {before rest : List MemoryImport} {best : Nat} {b : MemoryImport}
    (hbest : before[best]? = some b) (hleast : ∀ a ∈ before, b.used ≤ a.used) :
    ∃ a, (before ++ rest)[minElementFrom best b.used before.length rest]? = some a ∧
      ∀ c ∈ before ++ rest, a.used ≤ c.used := by
  induction rest generalizing before best b with
  | nil =>
    rw [List.append_nil]
    exact ⟨b, hbest, hleast⟩
  | cons a rest ih =>
    have hsplit : before ++ a :: rest = (before ++ [a]) ++ rest := by simp
    have hlength : before.length + 1 = (before ++ [a]).length := by simp
    rw [minElementFrom, hsplit, hlength]
    by_cases hless : a.used < b.used
    · rw [if_pos hless]
      refine ih (by simp) fun c hc => ?_
      rcases List.mem_append.mp hc with hc | hc
      · exact Nat.le_trans (Nat.le_of_lt hless) (hleast c hc)
      · exact Nat.le_of_eq (by rw [List.mem_singleton.mp hc])
    · rw [if_neg hless]
      have hin : best < before.length := (List.getElem?_eq_some_iff.mp hbest).1
      refine ih (by rw [List.getElem?_append_left hin, hbest]) fun c hc => ?_
      rcases List.mem_append.mp hc with hc | hc
      · exact hleast c hc
      · rw [List.mem_singleton.mp hc]
        exact Nat.le_of_not_lt hless

theorem minElement_spec (h : imports ≠ []) :
    ∃ a, imports[minElement imports]? = some a ∧ ∀ c ∈ imports, a.used ≤ c.used := by
  cases imports with
  | nil => exact absurd rfl h
  | cons a rest => exact @minElementFrom_spec [a] rest 0 a rfl (by simp)

/-- The last one in the place of the one dropped, up to order. -/
theorem swapRemove_perm {index : Nat} {dropped back : MemoryImport} (hdropped : imports[index]? = some dropped)
    (hback : imports.getLast? = some back) : imports.Perm (dropped :: (imports.set index back).dropLast) := by
  obtain ⟨init, rfl⟩ : ∃ init, imports = init ++ [back] := by
    rw [List.getLast?_eq_some_iff] at hback
    exact hback
  have hin : index < (init ++ [back]).length := (List.getElem?_eq_some_iff.mp hdropped).1
  rw [List.length_append, List.length_singleton] at hin
  by_cases hlast : index = init.length
  · subst hlast
    rw [List.getElem?_concat_length, Option.some.injEq] at hdropped
    subst hdropped
    simp
  · rw [List.getElem?_append_left (by omega)] at hdropped
    obtain ⟨hlt, hget⟩ := List.getElem?_eq_some_iff.mp hdropped
    obtain ⟨before, rest, rfl, rfl⟩ : ∃ before rest, init = before ++ dropped :: rest ∧
        before.length = index := by
      refine ⟨init.take index, init.drop (index + 1), ?_, by rw [List.length_take]; omega⟩
      rw [← hget, ← List.drop_eq_getElem_cons hlt, List.take_append_drop]
    have hset : (before ++ dropped :: rest ++ [back]).set before.length back =
        before ++ back :: rest ++ [back] := by simp
    rw [hset, List.dropLast_concat]
    calc (before ++ dropped :: rest ++ [back]).Perm (dropped :: (before ++ rest) ++ [back]) :=
          List.perm_middle.append_right _
      _ = dropped :: ((before ++ rest) ++ [back]) := rfl
      (dropped :: ((before ++ rest) ++ [back])).Perm (dropped :: (before ++ back :: rest)) :=
          .cons _ ((List.perm_append_singleton back _).trans List.perm_middle.symm)

end Imports

/-! ## One call -/

/-- What a stream holds, and the handles that have leaked. -/
def Stream.held (g : Stream) (leaked : List Nat) : Held where
  handles := leaked
  memories := g.imports.map (·.memory)
  mappings := g.imports.map (·.base)
  semaphores := g.cudaTimeline.toList ++ g.semaphores.map (·.semaphore)

structure Stream.Sound (g : Stream) (limit : Nat) (leaked : List Nat) : Prop where
  balanced : Balanced false g.log (g.held leaked)
  bounded : g.imports.length ≤ limit
  ids : (g.imports.map (·.id)).Nodup
  uses : (g.imports.map (·.used)).Nodup
  latest : ∀ i ∈ g.imports, i.used ≤ g.mapCalls

variable (posix : Bool) {limit : Nat} {g : Stream} {leaked : List Nat}

theorem importSemaphore_balanced {log : List Event} {hs ms bs ss : List Nat} (a : SemaphoreAnswers)
    (hb : Balanced false log ⟨hs, ms, bs, ss⟩) : Balanced false (log ++ (importSemaphore posix a).2)
      ⟨hs, ms, bs, (importSemaphore posix a).1.toList ++ ss⟩ := by
  unfold importSemaphore
  cases a.exportGPUSemaphore with
  | none => simpa using hb
  | some exported =>
    have hopen := hb.exported exported.handle
    have hclosed := hopen.closed
    rw [List.append_assoc] at hclosed
    cases hsupported : exported.supported with
    | false => simpa [closeHandle, hsupported] using hclosed
    | true =>
      cases hresult : a.cudaImportExternalSemaphore with
      | none => simpa [closeHandle, hsupported, hresult] using hclosed
      | some s =>
        cases posix with
        | false => simpa [takeHandle, closeHandle, hsupported, hresult] using (hopen.semaphore s).closed
        | true => simpa [takeHandle, closeHandle, hsupported, hresult] using (hopen.semaphore s).consumed

theorem mapSemaphore_sound (source : Nat) (a : SemaphoreAnswers) (hs : g.Sound limit leaked) :
    let r := mapSemaphore posix source a g
    r.2.Sound limit leaked ∧ (r.2.imports = g.imports ∧ r.2.mapCalls = g.mapCalls) ∧
      ∀ s, r.1 = some s → s ∈ (r.2.held leaked).semaphores := by
  unfold mapSemaphore
  cases hfind : g.semaphores.find? (·.source = source) with
  | some found =>
    refine ⟨hs, ⟨rfl, rfl⟩, fun s hsome => ?_⟩
    cases hsome
    have hmem := List.mem_of_find?_eq_some hfind
    exact List.mem_append_right _ (List.mem_map.mpr ⟨found, hmem, rfl⟩)
  | none =>
    by_cases hfull : kMaxSemaphoreImports ≤ g.semaphores.length
    · simp only [if_pos hfull]
      exact ⟨hs, ⟨trivial, trivial⟩, fun s hsome => absurd hsome (by simp)⟩
    · simp only [if_neg hfull]
      have hb := importSemaphore_balanced posix a hs.balanced
      cases hresult : importSemaphore posix a with
      | mk semaphore events =>
        rw [hresult] at hb
        cases semaphore with
        | none =>
          exact ⟨⟨hb, hs.bounded, hs.ids, hs.uses, hs.latest⟩, ⟨rfl, rfl⟩, fun s hsome => absurd hsome (by simp)⟩
        | some s =>
          refine ⟨⟨?_, hs.bounded, hs.ids, hs.uses, hs.latest⟩, ⟨rfl, rfl⟩, fun s' hsome => ?_⟩
          · refine hb.perm (.refl _) (.refl _) (.refl _) ?_
            simp only [Stream.held, Stream.emit, Option.toList_some, List.map_append, List.map_cons, List.map_nil]
            have hcomm : ([s] ++ (g.cudaTimeline.toList ++ g.semaphores.map (·.semaphore))).Perm
                (g.cudaTimeline.toList ++ g.semaphores.map (·.semaphore) ++ [s]) := List.perm_append_comm
            simpa using hcomm
          · cases hsome
            simp [Stream.held]

theorem hostWait_sound (frame : Nat) (w : WaitAnswers) (hs : g.Sound limit leaked) :
    let r := hostWait frame w g
    r.2.Sound limit leaked ∧ r.2.imports = g.imports ∧ r.2.mapCalls = g.mapCalls := by
  unfold hostWait
  by_cases hneeded : (g.hostSync && !g.hostWaited.contains frame) = true
  · rw [if_pos hneeded]
    cases w.waitGPUFrame with
    | false => exact ⟨hs, rfl, rfl⟩
    | true => exact ⟨⟨hs.balanced, hs.bounded, hs.ids, hs.uses, hs.latest⟩, rfl, rfl⟩
  · rw [if_neg hneeded]
    exact ⟨hs, rfl, rfl⟩

theorem waitInput_sound (frame : Nat) (w : WaitAnswers) (hs : g.Sound limit leaked) :
    let r := waitInput posix frame w g
    r.2.Sound limit leaked ∧ r.2.imports = g.imports ∧ r.2.mapCalls = g.mapCalls := by
  unfold waitInput
  cases w.getGPUPlane with
  | none => exact ⟨hs, rfl, rfl⟩
  | some ready =>
    cases g.hostSync with
    | true => exact hostWait_sound frame w hs
    | false =>
      cases ready with
      | none => exact hostWait_sound frame w hs
      | some source =>
        obtain ⟨hsound, ⟨himports, hcalls⟩, hlive⟩ := mapSemaphore_sound posix source w.semaphore hs
        dsimp only
        cases hmap : mapSemaphore posix source w.semaphore g with
        | mk semaphore g' =>
          rw [hmap] at hsound himports hcalls hlive
          rw [← himports, ← hcalls]
          cases semaphore with
          | none =>
            exact hostWait_sound frame w (g := { g' with hostSync := true })
              ⟨hsound.balanced, hsound.bounded, hsound.ids, hsound.uses, hsound.latest⟩
          | some s =>
            dsimp only
            cases w.cudaWaitExternalSemaphores with
            | false => exact ⟨hsound, rfl, rfl⟩
            | true =>
              exact hostWait_sound frame w (g := g'.emit [.wait s])
                ⟨hsound.balanced.wait (hlive s rfl), hsound.bounded, hsound.ids, hsound.uses, hsound.latest⟩

/-- The import that the last call has used is in the cache, with this mapping. -/
def Stream.Latest (g : Stream) (base : Nat) : Prop := ∃ i ∈ g.imports, i.base = base ∧ i.used = g.mapCalls

/-- A stream whose current call has a handle open. -/
structure Calling (g : Stream) (limit : Nat) (leaked : List Nat) (handle calls : Nat) : Prop where
  balanced : Balanced false g.log (g.held (handle :: leaked))
  bounded : g.imports.length ≤ limit
  ids : (g.imports.map (·.id)).Nodup
  uses : (g.imports.map (·.used)).Nodup
  latest : ∀ i ∈ g.imports, i.used < calls
  calls_eq : g.mapCalls = calls

theorem importPlane_sound {a : PlaneAnswers} {exported : Exported} {calls : Nat}
    (hc : Calling g limit leaked exported.handle calls) (hroom : g.imports.length < limit)
    (hnew : ∀ i ∈ g.imports, i.id ≠ exported.memoryId) :
    let r := importPlane posix a exported calls g
    r.2.Sound limit leaked ∧ (∀ plane, r.1 = some plane → r.2.Latest plane.base) ∧
      ∀ i ∈ g.imports, i ∈ r.2.imports := by
  have hlatest : ∀ i ∈ g.imports, i.used ≤ g.mapCalls := fun i hi => by
    rw [hc.calls_eq]
    exact Nat.le_of_lt (hc.latest i hi)
  unfold importPlane
  cases a.cudaImportExternalMemory with
  | none =>
    refine ⟨⟨?_, hc.bounded, hc.ids, hc.uses, hlatest⟩, fun plane h => absurd h (by simp), fun i hi => hi⟩
    exact hc.balanced.closed
  | some memory =>
    have hmemory := hc.balanced.memory memory
    cases a.cudaExternalMemoryGetMappedBuffer with
    | none =>
      refine ⟨⟨?_, hc.bounded, hc.ids, hc.uses, hlatest⟩, fun plane h => absurd h (by simp), fun i hi => hi⟩
      cases posix with
      | false => simpa [takeHandle, closeHandle, Stream.emit, Stream.held] using hmemory.destroyMemory.closed
      | true => simpa [takeHandle, closeHandle, Stream.emit, Stream.held] using hmemory.consumed.destroyMemory
    | some base =>
      have hfresh : ∀ i ∈ g.imports, i.used ≠ calls := fun i hi => Nat.ne_of_lt (hc.latest i hi)
      refine ⟨⟨?_, ?_, ?_, ?_, ?_⟩, fun plane h => ?_, fun i hi => List.mem_append_left _ hi⟩
      · have hheld : Balanced false (g.log ++ .memory memory :: (takeHandle posix exported.handle).1 ++
            .mapping base :: closeHandle (takeHandle posix exported.handle).2)
            ⟨leaked, memory :: g.imports.map (·.memory), base :: g.imports.map (·.base),
              g.cudaTimeline.toList ++ g.semaphores.map (·.semaphore)⟩ := by
          cases posix with
          | false => simpa [takeHandle, closeHandle] using (hmemory.mapping base).closed
          | true => simpa [takeHandle, closeHandle] using hmemory.consumed.mapping base
        have hperm : ∀ (x : Nat) (l : List Nat), (x :: l).Perm (l ++ [x]) :=
          fun x l => (List.perm_append_singleton x l).symm
        have hdone : Balanced false _ ⟨leaked, g.imports.map (·.memory) ++ [memory],
            g.imports.map (·.base) ++ [base], g.cudaTimeline.toList ++ g.semaphores.map (·.semaphore)⟩ :=
          hheld.perm (.refl _) (hperm _ _) (hperm _ _) (.refl _)
        simpa [Stream.emit, Stream.held] using hdone
      · simp only [List.length_append, List.length_singleton]
        exact hroom
      · simp only [List.map_append, List.map_cons, List.map_nil]
        refine List.nodup_append.mpr ⟨hc.ids, List.nodup_singleton _, ?_⟩
        intro id hid id' hid' heq
        obtain ⟨i, hi, rfl⟩ := List.mem_map.mp hid
        exact hnew i hi (heq.trans (List.mem_singleton.mp hid'))
      · simp only [List.map_append, List.map_cons, List.map_nil]
        refine List.nodup_append.mpr ⟨hc.uses, List.nodup_singleton _, ?_⟩
        intro used hused used' hused' heq
        obtain ⟨i, hi, rfl⟩ := List.mem_map.mp hused
        exact hfresh i hi (heq.trans (List.mem_singleton.mp hused'))
      · intro i hi
        rcases List.mem_append.mp hi with hi | hi
        · exact hlatest i hi
        · rw [List.mem_singleton.mp hi]
          exact Nat.le_of_eq hc.calls_eq.symm
      · cases h
        exact ⟨_, List.mem_append_right _ (List.mem_singleton_self _), rfl, hc.calls_eq.symm⟩

/-- The plane's memory is not in the cache, the cache is full, and the stream cannot be synchronised. -/
def EvictionFails (limit : Nat) (a : PlaneAnswers) (g : Stream) : Prop :=
  ∃ exported, a.exportGPUPlane = some exported ∧ exported.supported = true ∧
    (∀ i ∈ g.imports, i.id ≠ exported.memoryId) ∧ limit ≤ g.imports.length ∧ a.cudaStreamSynchronize = false

/-- An eviction takes the least recently used import, never the latest one of two or more. -/
theorem dropImport_calling {handle calls : Nat} (hc : Calling g limit leaked handle calls)
    (hnonempty : g.imports ≠ []) (hsettled : Settled false g.log) :
    let r := dropImport (minElement g.imports) g
    Calling r limit leaked handle calls ∧ r.imports.length < g.imports.length ∧
      (∀ i ∈ r.imports, i ∈ g.imports) ∧
      ∀ i ∈ g.imports, (∃ j ∈ g.imports, j.used < i.used) → i ∈ r.imports := by
  obtain ⟨dropped, hdropped, hleast⟩ := minElement_spec hnonempty
  obtain ⟨back, hback⟩ : ∃ back, g.imports.getLast? = some back :=
    ⟨_, List.getLast?_eq_some_getLast hnonempty⟩
  have hperm := swapRemove_perm hdropped hback
  have hdrop : dropImport (minElement g.imports) g =
      { g.emit [.free dropped.base, .destroyMemory dropped.memory] with
        imports := (g.imports.set (minElement g.imports) back).dropLast } := by
    unfold dropImport
    rw [hdropped, hback]
  dsimp only
  rw [hdrop]
  generalize (g.imports.set (minElement g.imports) back).dropLast = rest at hperm
  have hmem : ∀ i, i ∈ g.imports ↔ i = dropped ∨ i ∈ rest := fun i => by
    rw [hperm.mem_iff, List.mem_cons]
  refine ⟨⟨?_, ?_, ?_, ?_, ?_, hc.calls_eq⟩, ?_, ?_, ?_⟩
  · have hheld : Balanced false g.log ⟨handle :: leaked, dropped.memory :: rest.map (·.memory),
        dropped.base :: rest.map (·.base), g.cudaTimeline.toList ++ g.semaphores.map (·.semaphore)⟩ :=
      hc.balanced.perm (.refl _) (hperm.map _) (hperm.map _) (.refl _)
    simpa [Stream.emit, Stream.held] using (hheld.free hsettled).destroyMemory
  · have hlength := hperm.length_eq
    have hbounded := hc.bounded
    simp only [List.length_cons] at hlength ⊢
    omega
  · exact (List.nodup_cons.mp ((hperm.map _).nodup_iff.mp hc.ids)).2
  · exact (List.nodup_cons.mp ((hperm.map _).nodup_iff.mp hc.uses)).2
  · exact fun i hi => hc.latest i ((hmem i).mpr (.inr hi))
  · rw [hperm.length_eq]
    exact Nat.lt_succ_self _
  · exact fun i hi => (hmem i).mpr (.inr hi)
  · rintro i hi ⟨j, hj, hless⟩
    rcases (hmem i).mp hi with rfl | hin
    · exact absurd hless (Nat.not_lt.mpr (hleast j hj))
    · exact hin

/-- In a cache of two or more something was used before the latest import. -/
theorem exists_older (hs : g.Sound limit leaked) (hlength : 2 ≤ g.imports.length) {i : MemoryImport}
    (hlatest : i.used = g.mapCalls) : ∃ j ∈ g.imports, j.used < i.used := by
  by_contra hnone
  have hsame : ∀ j ∈ g.imports, j.used = i.used := fun j hj =>
    Nat.le_antisymm (hlatest ▸ hs.latest j hj) (Nat.not_lt.mp fun hless => hnone ⟨j, hj, hless⟩)
  have huses := hs.uses
  cases hlist : g.imports with
  | nil => simp [hlist] at hlength
  | cons a rest =>
    cases rest with
    | nil => simp [hlist] at hlength
    | cons b rest =>
      rw [hlist] at huses hsame
      have heq : a.used = b.used := (hsame a (by simp)).trans (hsame b (by simp)).symm
      simp [heq] at huses

/-- The memory of the plane is imported already: that import is used by the call. -/
theorem touch_sound {exported : Exported} {base : Nat} {after : List MemoryImport}
    (hs : g.Sound limit leaked) (htouch : touch exported.memoryId (g.mapCalls + 1) g.imports = some (base, after)) :
    let g' := { g.emit [.exported exported.handle, .closed exported.handle] with
      imports := after, mapCalls := g.mapCalls + 1 }
    g'.Sound limit leaked ∧ g'.Latest base ∧ after.map (·.base) = g.imports.map (·.base) := by
  obtain ⟨before, i, rest, hsplit, hid, hbase, rfl⟩ := touch_some htouch
  have hused : ∀ j ∈ before ++ i :: rest, j.used < g.mapCalls + 1 := fun j hj =>
    Nat.lt_succ_of_le (hs.latest j (hsplit ▸ hj))
  have hclosed := (hs.balanced.exported exported.handle).closed
  have hbounded := hs.bounded
  have hids := hs.ids
  have huses := hs.uses
  rw [hsplit] at hclosed hbounded hids huses
  refine ⟨⟨?_, ?_, ?_, ?_, ?_⟩, ?_, ?_⟩
  · simpa [Stream.emit, Stream.held] using hclosed
  · simpa using hbounded
  · simpa using hids
  · have hperm : ∀ a, ((before ++ a :: rest).map (·.used)).Perm (a.used :: (before ++ rest).map (·.used)) :=
      fun a => List.perm_middle.map _
    rw [(hperm i).nodup_iff, List.nodup_cons] at huses
    rw [(hperm _).nodup_iff, List.nodup_cons]
    refine ⟨fun hmem => ?_, huses.2⟩
    obtain ⟨j, hj, heq⟩ := List.mem_map.mp hmem
    have hless := hused j (by
      rw [List.perm_middle.mem_iff]
      exact List.mem_cons_of_mem _ hj)
    dsimp only at heq
    omega
  · intro j hj
    rcases List.mem_cons.mp (List.perm_middle.mem_iff.mp hj) with rfl | hj
    · exact Nat.le_refl _
    · exact Nat.le_of_lt (hused j (List.perm_middle.mem_iff.mpr (List.mem_cons_of_mem _ hj)))
  · exact ⟨_, List.mem_append_right _ List.mem_cons_self, hbase, rfl⟩
  · rw [hsplit]
    simp

/-- The handle of the plane is closed or owned at the end of the call, but where an eviction fails. -/
theorem mapPlane_sound (hlimit : 2 ≤ limit) (a : PlaneAnswers) (hs : g.Sound limit leaked) :
    let r := mapPlane posix limit a g
    (∃ more, r.2.Sound limit (more ++ leaked) ∧ (more = [] ↔ ¬ EvictionFails limit a g)) ∧
      (∀ plane, r.1 = some plane → r.2.Latest plane.base) ∧
      (r.1.isSome → ∀ base, g.Latest base → base ∈ r.2.imports.map (·.base)) := by
  unfold mapPlane
  cases hexport : a.exportGPUPlane with
  | none =>
    refine ⟨⟨[], hs, ?_⟩, fun plane h => absurd h (by simp), fun h => absurd h (by simp)⟩
    simp [EvictionFails, hexport]
  | some exported =>
    have hopen := hs.balanced.exported exported.handle
    have himports : (g.emit [.exported exported.handle]).imports = g.imports := rfl
    have hcalls : (g.emit [.exported exported.handle]).mapCalls = g.mapCalls := rfl
    dsimp only
    rw [himports, hcalls]
    cases hsupported : exported.supported with
    | false =>
      refine ⟨⟨[], ⟨hopen.closed, hs.bounded, hs.ids, hs.uses, hs.latest⟩, ?_⟩,
        fun plane h => absurd h (by simp), fun h => absurd h (by simp)⟩
      simp [EvictionFails, hexport, hsupported]
    | true =>
      simp only [Bool.not_true, Bool.false_eq_true, if_false]
      cases htouch : touch exported.memoryId (g.mapCalls + 1) g.imports with
      | some found =>
        obtain ⟨base, after⟩ := found
        obtain ⟨hsound, hlatest, hbases⟩ := touch_sound hs htouch
        refine ⟨⟨[], ⟨?_, hsound.bounded, hsound.ids, hsound.uses, hsound.latest⟩, ?_⟩, ?_, ?_⟩
        · simpa [Stream.emit, Stream.held, closeHandle] using hsound.balanced
        · obtain ⟨before, i, rest, hsplit, hid, -⟩ := touch_some htouch
          simp only [EvictionFails, true_iff, not_exists, not_and]
          intro e he _ hnew
          rw [hexport, Option.some.injEq] at he
          subst he
          exact absurd hid (hnew i (by rw [hsplit]; simp))
        · intro plane hplane
          cases hplane
          exact hlatest
        · rintro - base' ⟨j, hj, hbase', -⟩
          dsimp only
          rw [hbases]
          exact List.mem_map.mpr ⟨j, hj, hbase'⟩
      | none =>
        have hnew := touch_none htouch
        have hcalling : Calling { g.emit [.exported exported.handle] with mapCalls := g.mapCalls + 1 } limit
            leaked exported.handle (g.mapCalls + 1) :=
          ⟨hopen, hs.bounded, hs.ids, hs.uses, fun i hi => Nat.lt_succ_of_le (hs.latest i hi), rfl⟩
        dsimp only
        by_cases hfull : limit ≤ g.imports.length
        · rw [if_pos hfull]
          cases hsync : a.cudaStreamSynchronize with
          | false =>
            refine ⟨⟨[exported.handle], ⟨hopen.sync false, hs.bounded, hs.ids, hs.uses,
              fun i hi => Nat.le_of_lt (hcalling.latest i hi)⟩, ?_⟩, fun plane h => absurd h (by simp),
              fun h => absurd h (by simp)⟩
            simp only [List.cons_ne_self, false_iff, not_not]
            exact ⟨exported, hexport, hsupported, hnew, hfull, hsync⟩
          | true =>
            have hnonempty : g.imports ≠ [] := by
              intro hnil
              rw [hnil, List.length_nil] at hfull
              omega
            have hsynced : Calling ({ g.emit [.exported exported.handle] with
                mapCalls := g.mapCalls + 1 }.emit [.sync true]) limit leaked exported.handle (g.mapCalls + 1) :=
              ⟨hopen.sync true, hs.bounded, hs.ids, hs.uses, hcalling.latest, rfl⟩
            obtain ⟨hdropped, hless, hsub, hkeep⟩ :=
              dropImport_calling hsynced hnonempty ⟨_, true, [], rfl, .inr rfl, by simp⟩
            obtain ⟨hsound, hlatest, hold⟩ := importPlane_sound posix (a := a) hdropped
              (Nat.lt_of_lt_of_le hless hs.bounded) fun i hi => hnew i (hsub i hi)
            refine ⟨⟨[], hsound, ?_⟩, hlatest, ?_⟩
            · simp only [EvictionFails, true_iff, not_exists, not_and]
              intro _ _ _ _ _ hfails
              rw [hsync] at hfails
              exact absurd hfails (by simp)
            · rintro - base ⟨i, hi, hbase, hused⟩
              have holder := exists_older hs (Nat.le_trans hlimit hfull) hused
              exact List.mem_map.mpr ⟨i, hold i (hkeep i hi holder), hbase⟩
        · rw [if_neg hfull]
          obtain ⟨hsound, hlatest, hold⟩ := importPlane_sound posix (a := a) hcalling
            (Nat.lt_of_not_le hfull) hnew
          refine ⟨⟨[], hsound, ?_⟩, hlatest, ?_⟩
          · simp only [EvictionFails, true_iff, not_exists, not_and]
            exact fun _ _ _ _ h => absurd h hfull
          · rintro - base ⟨i, hi, hbase, -⟩
            exact List.mem_map.mpr ⟨i, hold i hi, hbase⟩

/-! ## Every sequence of operations -/

/-- The `map_plane` calls of an operation, each with the stream before it. -/
def Operation.maps (posix : Bool) (limit : Nat) (g : Stream) : Operation → List (PlaneAnswers × Stream)
  | .begin => []
  | .read frame w a =>
    match waitInput posix frame w g with
    | (false, _) => []
    | (true, g) => [(a, g)]
  | .write a => [(a, g)]
  | .copy frame w source target =>
    match waitInput posix frame w g with
    | (false, _) => []
    | (true, g) =>
      match mapPlane posix limit source g with
      | (none, _) => [(source, g)]
      | (some _, g') => [(source, g), (target, g')]
  | .fill a => [(a, g)]

/-- No eviction of the operations meets a stream that cannot be synchronised. -/
def Steady (posix : Bool) (limit : Nat) : Stream → List Operation → Prop
  | _, [] => True
  | g, o :: rest => (∀ c ∈ o.maps posix limit g, ¬ EvictionFails limit c.1 c.2) ∧
      Steady posix limit (o.run posix limit g) rest

theorem queueOn_sound (hlimit : 2 ≤ limit) (a : PlaneAnswers) (hs : g.Sound limit leaked) :
    ∃ more, (queueOn (mapPlane posix limit a g)).Sound limit (more ++ leaked) ∧
      (more = [] ↔ ¬ EvictionFails limit a g) := by
  obtain ⟨⟨more, hsound, hmore⟩, hlatest, -⟩ := mapPlane_sound posix hlimit a hs
  refine ⟨more, ?_, hmore⟩
  unfold queueOn
  cases hmapped : (mapPlane posix limit a g).1 with
  | none => exact hsound
  | some plane =>
    obtain ⟨i, hi, hbase, -⟩ := hlatest plane hmapped
    refine ⟨hsound.balanced.queue ?_, hsound.bounded, hsound.ids, hsound.uses, hsound.latest⟩
    intro x hx
    rw [List.mem_singleton.mp hx, ← hbase]
    exact List.mem_map.mpr ⟨i, hi, rfl⟩

theorem run_sound (hlimit : 2 ≤ limit) (o : Operation) (hs : g.Sound limit leaked) :
    ∃ more, (o.run posix limit g).Sound limit (more ++ leaked) ∧
      (more = [] ↔ ∀ c ∈ o.maps posix limit g, ¬ EvictionFails limit c.1 c.2) := by
  cases o with
  | begin => exact ⟨[], ⟨hs.balanced, hs.bounded, hs.ids, hs.uses, hs.latest⟩, by simp [Operation.maps]⟩
  | write a => simpa [Operation.run, Operation.maps] using queueOn_sound posix hlimit a hs
  | fill a => simpa [Operation.run, Operation.maps] using queueOn_sound posix hlimit a hs
  | read frame w a =>
    obtain ⟨hwaited, -, -⟩ := waitInput_sound posix frame w hs
    unfold Operation.run Operation.maps
    dsimp only
    cases hwait : waitInput posix frame w g with
    | mk returned g' =>
      rw [hwait] at hwaited
      cases returned with
      | false => exact ⟨[], hwaited, by simp⟩
      | true => simpa using queueOn_sound posix hlimit a hwaited
  | copy frame w source target =>
    obtain ⟨hwaited, -, -⟩ := waitInput_sound posix frame w hs
    unfold Operation.run Operation.maps
    dsimp only
    cases hwait : waitInput posix frame w g with
    | mk returned g' =>
      rw [hwait] at hwaited
      cases returned with
      | false => exact ⟨[], hwaited, by simp⟩
      | true =>
        obtain ⟨⟨more, hsound, hmore⟩, hlatest, -⟩ := mapPlane_sound posix hlimit source hwaited
        dsimp only at hsound hlatest ⊢
        cases hsource : mapPlane posix limit source g' with
        | mk plane g₁ =>
          rw [hsource] at hsound hlatest
          cases plane with
          | none => exact ⟨more, hsound, by simpa using hmore⟩
          | some fromPlane =>
            obtain ⟨⟨more', hsound', hmore'⟩, hlatest', hkeep⟩ := mapPlane_sound posix hlimit target hsound
            dsimp only at hsound' hlatest' hkeep ⊢
            have hboth : more' ++ more = [] ↔
                ∀ c ∈ [(source, g'), (target, g₁)], ¬ EvictionFails limit c.1 c.2 := by
              simp [hmore, hmore', and_comm]
            refine ⟨more' ++ more, ?_, hboth⟩
            rw [List.append_assoc]
            cases htarget : mapPlane posix limit target g₁ with
            | mk plane g₂ =>
              rw [htarget] at hsound' hlatest' hkeep
              cases plane with
              | none => exact hsound'
              | some toPlane =>
                refine ⟨hsound'.balanced.queue ?_, hsound'.bounded, hsound'.ids, hsound'.uses, hsound'.latest⟩
                intro x hx
                rcases List.mem_pair.mp hx with rfl | rfl
                · exact hkeep rfl _ (hlatest _ rfl)
                · obtain ⟨i, hi, hbase, -⟩ := hlatest' _ rfl
                  exact List.mem_map.mpr ⟨i, hi, hbase⟩

theorem foldl_sound (hlimit : 2 ≤ limit) (operations : List Operation) (hs : g.Sound limit leaked) :
    ∃ more, (operations.foldl (Operation.run posix limit) g).Sound limit (more ++ leaked) ∧
      (more = [] ↔ Steady posix limit g operations) := by
  induction operations generalizing g leaked with
  | nil => exact ⟨[], hs, by simp [Steady]⟩
  | cons o operations ih =>
    obtain ⟨first, hfirst, hsteady⟩ := run_sound posix hlimit o hs
    obtain ⟨more, hmore, hrest⟩ := ih hfirst
    refine ⟨more ++ first, ?_, ?_⟩
    · rw [List.append_assoc]
      exact hmore
    · rw [List.append_eq_nil_iff, hrest, hsteady, Steady, and_comm]

theorem construct_sound (limit : Nat) (a : SemaphoreAnswers) : (construct posix a).Sound limit [] := by
  have hnothing : Balanced false [] ⟨[], [], [], []⟩ := ⟨guarded_nil, by simp, by simp, by simp, by simp⟩
  have hb := importSemaphore_balanced posix a hnothing
  unfold construct
  refine ⟨?_, by simp, by simp, by simp, by simp⟩
  simpa [Stream.held] using hb

/-! ## The destructor -/

section Destructor

variable {log : List Event} {held : Held} {hs ms bs ss : List Nat}

omit posix

theorem Balanced.final (hb : Balanced false log held) : Balanced true log held where
  guarded := by
    intro pre e post heq
    have hpermitted := hb.guarded pre e post heq
    cases e with
    | free b =>
      obtain ⟨p, ok, q, hpre, -, hq⟩ := hpermitted.2
      exact ⟨hpermitted.1, p, ok, q, hpre, .inl rfl, hq⟩
    | _ => exact hpermitted
  handles := hb.handles
  memories := hb.memories
  mappings := hb.mappings
  semaphores := hb.semaphores

theorem Settled.snoc {final : Bool} {e : Event} (h : Settled final log) (he : ∀ bases, e ≠ .queue bases) :
    Settled final (log ++ [e]) := by
  obtain ⟨p, ok, q, rfl, hok, hq⟩ := h
  refine ⟨p, ok, q ++ [e], by simp, hok, fun bases hmem => ?_⟩
  rcases List.mem_append.mp hmem with hmem | hmem
  · exact hq bases hmem
  · exact he bases (List.mem_singleton.mp hmem).symm

theorem Balanced.freeAll (imports : List MemoryImport) (hsettled : Settled true log)
    (hb : Balanced true log ⟨hs, imports.map (·.memory), imports.map (·.base), ss⟩) :
    Balanced true (log ++ imports.flatMap fun i => [Event.free i.base, Event.destroyMemory i.memory])
      ⟨hs, [], [], ss⟩ := by
  induction imports generalizing log with
  | nil => simpa using hb
  | cons i rest ih =>
    have hfreed := (hb.free hsettled).destroyMemory
    have hnext := (hsettled.snoc (e := .free i.base) (by simp)).snoc (e := .destroyMemory i.memory) (by simp)
    simpa using ih hnext hfreed

theorem Balanced.destroyAll {final : Bool} (l : List Nat) (hb : Balanced final log ⟨hs, ms, bs, l ++ ss⟩) :
    Balanced final (log ++ l.map .destroySemaphore) ⟨hs, ms, bs, ss⟩ := by
  induction l generalizing log with
  | nil => simpa using hb
  | cons s rest ih => simpa using ih hb.destroySemaphore

theorem destroy_balanced (synced : Bool) (hsound : g.Sound limit leaked) :
    Balanced true (destroy synced g) ⟨leaked, [], [], []⟩ := by
  have hsynced := hsound.balanced.final.sync synced
  have hfreed := Balanced.freeAll g.imports ⟨g.log, synced, [], rfl, .inl rfl, by simp⟩ hsynced
  have horder : Balanced true _ ⟨leaked, [], [], g.semaphores.map (·.semaphore) ++ g.cudaTimeline.toList⟩ :=
    hfreed.perm (.refl _) (.refl _) (.refl _) List.perm_append_comm
  have hsemaphores := Balanced.destroyAll (g.semaphores.map (·.semaphore)) horder
  rw [← List.append_nil g.cudaTimeline.toList] at hsemaphores
  have hdone := Balanced.destroyAll g.cudaTimeline.toList hsemaphores
  simpa [destroy, Function.comp_def] using hdone

end Destructor

/-- The cache is bounded and nothing leaks, but for the handle of a plane whose eviction fails. -/
theorem import_cache (hlimit : 2 ≤ limit) (a : SemaphoreAnswers) (operations : List Operation) :
    let g := run posix limit a operations
    (g.imports.length ≤ limit ∧ (g.imports.map (·.id)).Nodup) ∧
    Guarded (Permitted false) g.log ∧
    (∀ synced, let log := destroy synced g
      Guarded (Permitted true) log ∧ ∀ x,
        log.count (.memory x) = log.count (.destroyMemory x) ∧
        log.count (.mapping x) = log.count (.free x) ∧
        log.count (.semaphore x) = log.count (.destroySemaphore x)) ∧
    ((∀ h, g.log.count (.exported h) = g.log.count (.closed h) + g.log.count (.consumed h)) ↔
      Steady posix limit (construct posix a) operations) := by
  obtain ⟨more, hsound, hsteady⟩ := foldl_sound posix hlimit operations (construct_sound posix limit a)
  rw [List.append_nil] at hsound
  intro g
  have hsound : g.Sound limit more := hsound
  refine ⟨⟨hsound.bounded, hsound.ids⟩, hsound.balanced.guarded, fun synced => ?_, ?_⟩
  · have hdone := destroy_balanced synced hsound
    refine ⟨hdone.guarded, fun x => ⟨?_, ?_, ?_⟩⟩
    · simpa using hdone.memories x
    · simpa using hdone.mappings x
    · simpa using hdone.semaphores x
  · rw [← hsteady]
    constructor
    · intro hbalanced
      rw [List.eq_nil_iff_forall_not_mem]
      intro h hmem
      have hcount := List.count_pos_iff.mpr hmem
      have hheld := hsound.balanced.handles h
      have hclosed := hbalanced h
      simp only [Stream.held] at hheld
      omega
    · rintro rfl h
      simpa [Stream.held] using hsound.balanced.handles h

/-- A write to a plane of its own memory. -/
def writeNew (id : Nat) (synced : Bool) : Operation :=
  .write { exportGPUPlane := some { handle := id, supported := true, memoryId := id, offset := 0 }
           cudaStreamSynchronize := synced
           cudaImportExternalMemory := some (10 + id)
           cudaExternalMemoryGetMappedBuffer := some (100 + id) }

def noSemaphore : SemaphoreAnswers := { exportGPUSemaphore := none, cudaImportExternalSemaphore := none }

/-- The third memory of a cache of two, and the stream cannot be synchronised: its handle leaks. -/
theorem import_cache_leak :
    let log := (run true 2 noSemaphore [writeNew 1 true, writeNew 2 true, writeNew 3 false]).log
    log.count (.exported 3) = 1 ∧ log.count (.closed 3) = 0 ∧ log.count (.consumed 3) = 0 := by decide

/-- Where it can be, the least recently used of the two is dropped. -/
theorem import_cache_evicts :
    let g := run true 2 noSemaphore [writeNew 1 true, writeNew 2 true, writeNew 3 true]
    g.imports.length ≤ 2 ∧ g.imports.map (·.id) = [2, 3] ∧
      g.log.count (.exported 3) = g.log.count (.closed 3) + g.log.count (.consumed 3) := by
  have h := import_cache true (Nat.le_refl 2) noSemaphore [writeNew 1 true, writeNew 2 true, writeNew 3 true]
  refine ⟨h.1.1, by decide, h.2.2.2.mpr ?_ 3⟩
  refine ⟨?_, ?_, ?_, trivial⟩ <;> simp [writeNew, Operation.maps, EvictionFails]

end NssFactory.Cuda.ImportCache

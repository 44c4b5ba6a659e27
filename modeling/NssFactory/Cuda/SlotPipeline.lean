import NssFactory.Cuda.LsscFrame

/-!
# The buffers of a CUDA LSSC slot

The kernels of `getFrame` on the streams of a slot, with every buffer of its own: the sets that
planes take in turn, the buffers that all planes code in, and the staging regions of the sets that
requests lease. What a kernel writes is tagged with the request and the plane it works for.

A request leases a staging set, has the slot while its work is queued, and gives the set back when
its results are copied out; other requests come in between in any order.
-/

namespace NssFactory.Cuda.SlotPipeline

open Streams

def kAtoms : Nat := 256

def kLsscBatch : Nat := 32768

inductive Event where
  | uploaded (b : Nat)
  | packed (b : Nat)
  | dictionary (b : Nat)
  | coded (b : Nat)
  | downloaded
  /-- Of a staging set. -/
  | done (g : Nat)
  | ready (i plane : Nat)
deriving DecidableEq

/-- The buffers. Planes of frames are named, but what is done to them is not followed. -/
inductive Loc where
  | input (b : Nat)
  | patches (b : Nat)
  | dict (b : Nat)
  | transpose (b : Nat)
  | gram (b : Nat)
  | invNorm (b : Nat)
  | sampleY (b : Nat)
  | sampleA (b : Nat)
  | sampleR (b : Nat)
  | ksvdSync (b : Nat)
  | sources (b : Nat)
  | values
  | mean
  | yy
  | flags
  | alpha0
  | ubuf
  | counters
  | patchMeta
  | aggregator
  | num
  | den
  | out
  | staging (g region : Nat)
  | source (i plane : Nat)
deriving DecidableEq

/-- A request and one of its planes. -/
abbrev Tag := Nat × Nat

abbrev Calls := List (Call Lssc.Stream Event Loc Tag)

/-! ## Kernels -/

/-- An item for each buffer that a kernel writes. -/
def launch (s : Lssc.Stream) (t : Tag) (writes reads : List Loc) : Calls :=
  writes.map fun l => .queue s (.assign l reads fun _ => t)

/-- A copy from a buffer to a frame. -/
def fetch (s : Lssc.Stream) (t : Tag) (l : Loc) : Call Lssc.Stream Event Loc Tag :=
  .queue s (.assign l [l] fun _ => t)

section Kernels

variable (b : Nat) (t : Tag)

def lsscPack : Calls := launch (.front b) t [.patches b] [.input b]

def lsscLcgSources (first atoms : Nat) : Calls :=
  if atoms ≤ first then [] else launch (.side b) t [.sources b] []

def lsscPatchAtoms (first atoms : Nat) : Calls :=
  launch (.side b) t [.dict b] (.dict b :: if atoms ≤ first then [] else [.patches b, .sources b])

def lsscKsvd : Calls :=
  launch (.side b) t [.sampleY b] [.patches b] ++
  launch (.side b) t [.transpose b] [.dict b] ++
  launch (.side b) t [.sampleA b] [.sampleY b, .transpose b, .dict b] ++
  launch (.side b) t [.sampleR b] [.dict b, .sampleA b] ++
  launch (.side b) t [.ksvdSync b] [.sampleA b] ++
  launch (.side b) t [.dict b, .sampleA b, .sampleR b, .ksvdSync b]
    [.dict b, .sampleA b, .sampleR b, .ksvdSync b, .sampleY b]

def lsscPrepare : Calls := launch (.side b) t [.gram b, .transpose b, .invNorm b] [.dict b]

/-- The copy of the constant atoms and what follows it. -/
def dictionary (m np : Nat) : Calls :=
  let atoms := min kAtoms np
  let dct := min atoms m
  launch (.side b) t [.dict b] [] ++ lsscLcgSources b t dct atoms ++ lsscPatchAtoms b t dct atoms ++
    (if 2 ≤ np then lsscKsvd b t else []) ++ lsscPrepare b t

def lsscCode (np : Nat) : Calls :=
  let batch := min kLsscBatch np
  launch .stream t [.values, .patchMeta, .mean, .yy, .flags] [.patches b] ++
  launch .stream t [.counters] [] ++
  (List.range ((np + batch - 1) / batch)).flatMap fun _ =>
    launch .stream t [.alpha0] [.values, .transpose b] ++
    launch .stream t [.values, .ubuf, .counters]
      [.patches b, .flags, .mean, .yy, .alpha0, .invNorm b, .gram b, .dict b, .counters]

/-- `OrderedAggregator::run` -/
def aggregate : Calls :=
  launch .stream t [.aggregator] [] ++ launch .stream t [.aggregator] [.patchMeta] ++
  launch .stream t [.aggregator] [.aggregator] ++
  launch .stream t [.num, .den] [.values, .patchMeta, .aggregator]

def lsscFinish : Calls := launch .stream t [.out] [.num, .den, .input b]

def denoisePlane (m np : Nat) : Calls :=
  [.wait (.front b) (.uploaded b), .wait (.front b) (.coded b)] ++ lsscPack b t ++
  [.record (.packed b) (.front b), .wait (.side b) (.packed b)] ++ dictionary b t m np ++
  [.record (.dictionary b) (.side b), .wait .stream (.dictionary b)] ++ lsscCode b t np ++ aggregate t ++
  [.wait .stream .downloaded] ++ lsscFinish b t ++ [.record (.coded b) .stream]

end Kernels

/-! ## A request -/

structure Plan where
  filter : Lssc.Filter Unit
  /-- `block_size` squared. -/
  m : Nat
  /-- The patches of a plane's grid. -/
  np : Nat → Nat

structure Slot where
  turn : Nat
  gpu : GpuStream
  load : GpuStream

/-- A request with the staging set that it has. -/
structure Lease where
  set : Nat
  id : Nat
  request : Lssc.Request Unit
  /-- Its work is queued. -/
  entered : Bool

section Frames

variable (d : Plan) (e : Lease)

/-- The frame a request reads is its first. -/
def port (imports : Imports) (st : Lssc.Stream) : Port Lssc.Stream Event Loc where
  imports := imports
  stream := st
  planes := d.filter.planes
  waits _ plane := d.filter.gpu && e.request.waits plane
  ready _ plane := .ready e.id plane
  source _ plane := .source e.id plane

def region (plane : Nat) : Loc := .staging e.set (d.filter.region plane)

/-- `stage_plane` -/
def stagePlane (plane : Nat) : Calls :=
  [.queue (.host e.id) (.assign (region d e plane) [] fun _ => (e.id, plane)), .syncStream (.host e.id)]

/-- `finish_download` -/
def finishDownload (plane : Nat) : Calls :=
  [fetch (.host e.id) (e.id, plane) (region d e plane), .syncStream (.host e.id)]

/-- Before the request has a slot. -/
def stageIn : Calls :=
  d.filter.filtered.flatMap fun plane =>
    if d.filter.whole && !d.filter.gpu && !e.request.directIn plane then stagePlane d e plane else []

/-- A step for each of the planes. -/
def overPlanes (f : Nat → Slot → Calls × Slot) : List Nat → Slot → Calls × Slot
  | [], s => ([], s)
  | plane :: planes, s =>
    let first := f plane s
    let rest := overPlanes f planes first.2
    (first.1 ++ rest.1, rest.2)

/-- Between frames on the device. -/
def copyPlane (plane : Nat) (s : Slot) : Calls × Slot :=
  let p := port d e e.request.imports .stream
  let waited := s.gpu.waitInput p 0 plane
  let mapped := waited.2.mapPlane p
  let mapped' := mapped.2.mapPlane p
  let published := mapped'.2.publish p
  (waited.1 ++ mapped.1 ++ mapped'.1 ++ published.1, { s with gpu := published.2.1 })

def upload (plane b : Nat) (s : Slot) : Calls × Slot :=
  let t := (e.id, plane)
  if d.filter.slotGpu then
    let p := port d e e.request.importsLoad .load
    let waited := s.load.waitInput p 0 plane
    let mapped := waited.2.mapPlane p
    (waited.1 ++ mapped.1 ++ launch .load t [.input b] [], { s with load := mapped.2 })
  else if e.request.directIn plane then (launch .load t [.input b] [], s)
  else (launch .load t [.input b] [region d e plane], s)

def download (plane : Nat) (s : Slot) : Calls × Slot :=
  let t := (e.id, plane)
  if d.filter.slotGpu then
    let p := port d e e.request.imports .stream
    let mapped := s.gpu.mapPlane p
    let published := mapped.2.publish p
    (mapped.1 ++ [fetch .stream t .out] ++ published.1, { s with gpu := published.2.1 })
  else if e.request.directOut plane then ([fetch d.filter.outStream t .out], s)
  else (launch d.filter.outStream t [region d e plane] [.out], s)

/-- Behind the download of a plane. -/
def settlePlane (plane : Nat) : Calls :=
  if d.filter.whole then [.record .downloaded .copy]
  else
    .syncStream .stream ::
      if !d.filter.slotGpu && !e.request.directOut plane then finishDownload d e plane else []

def filterPlane (plane : Nat) (s : Slot) : Calls × Slot :=
  let b := s.turn
  let uploaded := upload d e plane b { s with turn := (s.turn + 1) % d.filter.depth }
  let downloaded := download d e plane uploaded.2
  ((if !d.filter.whole && !d.filter.gpu && !e.request.directIn plane then stagePlane d e plane else []) ++
    ([.wait .load (.coded b)] ++ uploaded.1 ++ [.record (.uploaded b) .load]) ++
    denoisePlane b (e.id, plane) d.m (d.np plane) ++
    ((if d.filter.whole then [.wait .copy (.coded b)] else []) ++ downloaded.1) ++ settlePlane d e plane, downloaded.2)

def copyPlanes (s : Slot) : Calls × Slot :=
  if d.filter.slotGpu then
    overPlanes (copyPlane d e) d.filter.copied { s with
      gpu := s.gpu.begin (port d e e.request.imports .stream)
      load := s.load.begin (port d e e.request.importsLoad .load) }
  else ([], s)

/-- What the request does with its slot. -/
def queueFrame (s : Slot) : Calls × Slot :=
  let copies := copyPlanes d e s
  let planes := overPlanes (filterPlane d e) d.filter.filtered copies.2
  (copies.1 ++ planes.1 ++ (if d.filter.whole then [.record (.done e.set) .copy] else []), planes.2)

/-- After the slot was given back. -/
def finishFrame : Calls :=
  if d.filter.whole then
    .syncEvent (.done e.set) :: d.filter.filtered.flatMap fun plane =>
      if d.filter.gpu || e.request.directOut plane then [] else finishDownload d e plane
  else []

end Frames

/-! ## Runs -/

/-- What happens: a request leases a staging set, the request of a set has the slot, and it goes on to its end. -/
inductive Step where
  | acquire (g : Nat) (r : Lssc.Request Unit)
  | enter (g : Nat)
  | leave (g : Nat)

structure Run where
  calls : Calls
  slot : Slot
  leases : Nat → Option Lease
  count : Nat

/-- What cannot happen leaves everything as it is. -/
def Run.step (d : Plan) (t : Run) : Step → Run
  | .acquire g r =>
    match t.leases g with
    | some _ => t
    | none =>
      let e : Lease := ⟨g, t.count, r, false⟩
      { t with
        calls := t.calls ++ stageIn d e
        leases := Function.update t.leases g (some e)
        count := t.count + 1 }
  | .enter g =>
    match t.leases g with
    | none => t
    | some e =>
      if e.entered then t
      else
        let queued := queueFrame d e t.slot
        { t with
          calls := t.calls ++ queued.1
          slot := queued.2
          leases := Function.update t.leases g (some { e with entered := true }) }
  | .leave g =>
    match t.leases g with
    | none => t
    | some e =>
      if e.entered then
        { t with
          calls := t.calls ++ finishFrame d e
          leases := Function.update t.leases g none }
      else t

def run (d : Plan) (s : Slot) (steps : List Step) : Run :=
  steps.foldl (Run.step d) ⟨[], s, fun _ => none, 0⟩

/-! ## Runs of one stream -/

section Segments

variable {l : Loc} {C : Set (View Lssc.Stream Event)} {s : Lssc.Stream} {t : Tag} {K K' : Loc → Prop} {cs cs' : Calls}
  {ev : Event}

/-- Items of one stream on buffers of a kind. -/
def Runs (s : Lssc.Stream) (K : Loc → Prop) (cs : Calls) : Prop :=
  ∀ c ∈ cs, ∃ w : Work Loc Tag, c = .queue s w ∧ ∀ l ∈ w.locs, K l

theorem Runs.append (h : Runs s K cs) (h' : Runs s K cs') : Runs s K (cs ++ cs') :=
  fun c hc => (List.mem_append.mp hc).elim (h c) (h' c)

theorem Runs.flatMap {xs : List Nat} {f : Nat → Calls} (h : ∀ x, Runs s K (f x)) : Runs s K (xs.flatMap f) := by
  intro c hc
  obtain ⟨x, -, hc⟩ := List.mem_flatMap.mp hc
  exact h x c hc

theorem launch_runs {writes reads : List Loc} (hw : ∀ l ∈ writes, K l) (hr : ∀ l ∈ reads, K l) :
    Runs s K (launch s t writes reads) := by
  intro c hc
  obtain ⟨l, hl, rfl⟩ := List.mem_map.mp hc
  refine ⟨_, rfl, fun l' hl' => ?_⟩
  cases List.mem_cons.mp hl' with
  | inl heq => exact heq ▸ hw l hl
  | inr hmem => exact hr l' hmem

theorem fetch_runs (h : K l) : Runs s K [fetch s t l] := by
  intro c hc
  rw [List.mem_singleton] at hc
  subst hc
  exact ⟨_, rfl, by simpa [Work.locs] using h⟩

/-- Behind its stream, whatever it touches. -/
theorem Runs.follows (h : Runs s K cs) (hC : .stream s ∈ C) : Follows l C cs {View.stream s} := by
  induction cs generalizing C with
  | nil => exact Set.singleton_subset_iff.mpr hC
  | cons c cs ih =>
    obtain ⟨w, rfl, -⟩ := h c List.mem_cons_self
    refine ⟨fun _ => hC, ih (fun c hc => h c (List.mem_cons_of_mem _ hc)) ?_⟩
    simp only [cover]
    split
    · exact rfl
    · exact hC

theorem Runs.spares (h : Runs s K cs) (hl : ¬ K l) : ∀ c ∈ cs, c.Spares l C := by
  intro c hc
  obtain ⟨w, rfl, hw⟩ := h c hc
  exact fun hmem => hl (hw l hmem)

theorem follows_wait (hC : .event ev ∈ C) : Follows l C ([.wait s ev] : Calls) {View.stream s} :=
  ⟨trivial, Set.singleton_subset_iff.mpr (.inr ⟨rfl, hC⟩)⟩

theorem follows_record (hC : .stream s ∈ C) : Follows l C ([.record ev s] : Calls) {View.event ev} :=
  ⟨trivial, Set.singleton_subset_iff.mpr (.inl ⟨rfl, hC⟩)⟩

end Segments

/-! ## The kernels of a plane -/

/-- The buffers of set `b`. -/
def OfSet (b : Nat) : Loc → Prop
  | .input c | .patches c | .dict c | .transpose c | .gram c | .invNorm c | .sampleY c | .sampleA c | .sampleR c
  | .ksvdSync c | .sources c => c = b
  | _ => False

/-- The buffers that every plane codes in. -/
def Shared : Loc → Prop
  | .values | .mean | .yy | .flags | .alpha0 | .ubuf | .counters | .patchMeta | .aggregator | .num | .den => True
  | _ => False

section Plane

variable {b m np : Nat} {t : Tag} {l : Loc} {C : Set (View Lssc.Stream Event)}

theorem lsscPack_runs : Runs (.front b) (OfSet b) (lsscPack b t) := launch_runs (by simp [OfSet]) (by simp [OfSet])

theorem lsscKsvd_runs : Runs (.side b) (OfSet b) (lsscKsvd b t) := by
  unfold lsscKsvd
  refine (((((launch_runs ?_ ?_).append (launch_runs ?_ ?_)).append (launch_runs ?_ ?_)).append
    (launch_runs ?_ ?_)).append (launch_runs ?_ ?_)).append (launch_runs ?_ ?_)
  all_goals simp [OfSet]

theorem lsscPatchAtoms_runs {first atoms : Nat} : Runs (.side b) (OfSet b) (lsscPatchAtoms b t first atoms) := by
  refine launch_runs (by simp [OfSet]) fun l hl => ?_
  cases List.mem_cons.mp hl with
  | inl heq => exact heq ▸ rfl
  | inr hmem =>
    split at hmem
    · cases hmem
    · simp only [List.mem_cons, List.not_mem_nil, or_false] at hmem
      rcases hmem with rfl | rfl <;> rfl

theorem lsscLcgSources_runs {first atoms : Nat} : Runs (.side b) (OfSet b) (lsscLcgSources b t first atoms) := by
  unfold lsscLcgSources
  split
  · exact nofun
  · exact launch_runs (by simp [OfSet]) nofun

theorem dictionary_runs : Runs (.side b) (OfSet b) (dictionary b t m np) := by
  have hksvd : Runs (.side b) (OfSet b) (if 2 ≤ np then lsscKsvd b t else []) := by
    split
    · exact lsscKsvd_runs
    · exact nofun
  have hprepare : Runs (.side b) (OfSet b) (lsscPrepare b t) := launch_runs (by simp [OfSet]) (by simp [OfSet])
  exact ((((launch_runs (by simp [OfSet]) nofun).append lsscLcgSources_runs).append lsscPatchAtoms_runs).append
    hksvd).append hprepare

theorem lsscCode_runs : Runs .stream (fun l => OfSet b l ∨ Shared l) (lsscCode b t np) := by
  have hbatch : Runs .stream (fun l => OfSet b l ∨ Shared l) (launch .stream t [.alpha0] [.values, .transpose b] ++
      launch .stream t [.values, .ubuf, .counters]
        [.patches b, .flags, .mean, .yy, .alpha0, .invNorm b, .gram b, .dict b, .counters]) :=
    (launch_runs (by simp [Shared]) (by simp [OfSet, Shared])).append
      (launch_runs (by simp [Shared]) (by simp [OfSet, Shared]))
  exact ((launch_runs (by simp [Shared]) (by simp [OfSet])).append (launch_runs (by simp [Shared]) nofun)).append
    (Runs.flatMap fun _ => hbatch)

theorem aggregate_runs : Runs .stream Shared (aggregate t) := by
  unfold aggregate
  refine (((launch_runs ?_ ?_).append (launch_runs ?_ ?_)).append (launch_runs ?_ ?_)).append (launch_runs ?_ ?_)
  all_goals simp [Shared]

theorem lsscFinish_runs : Runs .stream (fun l => OfSet b l ∨ Shared l ∨ l = .out) (lsscFinish b t) :=
  launch_runs (by simp) (by simp [OfSet, Shared])

/-- Whatever buffer it is: what is behind the upload, or behind the coding before, is behind the coding. -/
theorem denoisePlane_chain (hC : .event (.uploaded b) ∈ C ∨ .event (.coded b) ∈ C) :
    Follows l C (denoisePlane b t m np) {View.stream .stream, .event (.coded b)} := by
  have hfront : Follows l C ([.wait (.front b) (.uploaded b), .wait (.front b) (.coded b)] : Calls)
      {View.stream (.front b)} := by
    refine ⟨trivial, trivial, Set.singleton_subset_iff.mpr ?_⟩
    cases hC with
    | inl h => exact .inl (.inr ⟨rfl, h⟩)
    | inr h => exact .inr ⟨rfl, .inl h⟩
  have hside : Follows l {View.stream (.front b)}
      ([.record (.packed b) (.front b), .wait (.side b) (.packed b)] : Calls) {View.stream (.side b)} :=
    (follows_record (Set.mem_singleton _)).append (follows_wait (Set.mem_singleton _))
  have hstream : Follows l {View.stream (.side b)}
      ([.record (.dictionary b) (.side b), .wait .stream (.dictionary b)] : Calls) {View.stream .stream} :=
    (follows_record (Set.mem_singleton _)).append (follows_wait (Set.mem_singleton _))
  have hdownloaded : Follows l {View.stream .stream} ([.wait .stream .downloaded] : Calls) {View.stream .stream} :=
    ⟨trivial, fun v hv => .inl hv⟩
  have hcoded : Follows l {View.stream .stream} ([.record (.coded b) .stream] : Calls)
      {View.stream .stream, .event (.coded b)} := by
    simp [Follows, Allowed, cover, Set.insert_subset_iff]
  have hpack : Follows l {View.stream (.front b)} (lsscPack b t) {View.stream (.front b)} :=
    lsscPack_runs.follows (Set.mem_singleton _)
  have hdictionary : Follows l {View.stream (.side b)} (dictionary b t m np) {View.stream (.side b)} :=
    dictionary_runs.follows (Set.mem_singleton _)
  have hcode : Follows l {View.stream .stream} (lsscCode b t np ++ aggregate t) {View.stream .stream} :=
    (lsscCode_runs.follows (Set.mem_singleton _)).append (aggregate_runs.follows (Set.mem_singleton _))
  have hfinish : Follows l {View.stream .stream} (lsscFinish b t) {View.stream .stream} :=
    lsscFinish_runs.follows (Set.mem_singleton _)
  have hfronts := ((((hfront.append hpack).append hside).append hdictionary).append hstream).append hcode
  rw [← List.append_assoc] at hfronts
  exact ((hfronts.append hdownloaded).append hfinish).append hcoded

/-- Up to the coding, nothing but the buffers of the set is touched. -/
theorem denoisePlane_fronts (hset : ¬ OfSet b l) (hpacked : .event (.packed b) ∉ C)
    (hdictionary : .event (.dictionary b) ∉ C) :
    Follows l C (([.wait (.front b) (.uploaded b), .wait (.front b) (.coded b)] ++ lsscPack b t ++
      [.record (.packed b) (.front b), .wait (.side b) (.packed b)] ++ dictionary b t m np ++
      [.record (.dictionary b) (.side b), .wait .stream (.dictionary b)] : Calls)) C := by
  have hwaits : Follows l C ([.wait (.front b) (.uploaded b), .wait (.front b) (.coded b)] : Calls) C :=
    follows_of_spares (by simp [Call.Spares])
  have hside : Follows l C ([.record (.packed b) (.front b), .wait (.side b) (.packed b)] : Calls) C :=
    follows_of_spares (by simp [Call.Spares, hpacked])
  have hstream : Follows l C ([.record (.dictionary b) (.side b), .wait .stream (.dictionary b)] : Calls) C :=
    follows_of_spares (by simp [Call.Spares, hdictionary])
  exact (((hwaits.append (follows_of_spares (lsscPack_runs.spares hset))).append hside).append
    (follows_of_spares (dictionary_runs.spares hset))).append hstream

theorem denoisePlane_shared (hl : Shared l) :
    Follows l {View.stream .stream} (denoisePlane b t m np) {View.stream .stream} := by
  have hset : ¬ OfSet b l := by
    intro h
    cases l <;> first | exact hl | exact h
  have hpacked : .event (.packed b) ∉ ({View.stream .stream} : Set (View Lssc.Stream Event)) := by simp
  have hdictionary : .event (.dictionary b) ∉ ({View.stream .stream} : Set (View Lssc.Stream Event)) := by simp
  have hdownloaded : Follows l {View.stream .stream} ([.wait .stream .downloaded] : Calls) {View.stream .stream} :=
    ⟨trivial, fun v hv => .inl hv⟩
  have hcoded : Follows l {View.stream .stream} ([.record (.coded b) .stream] : Calls) {View.stream .stream} := by
    simp [Follows, Allowed, cover]
  exact (((((denoisePlane_fronts hset hpacked hdictionary).append (lsscCode_runs.follows (Set.mem_singleton _))).append
    (aggregate_runs.follows (Set.mem_singleton _))).append hdownloaded).append
    (lsscFinish_runs.follows (Set.mem_singleton _))).append hcoded

/-- The result is written once its last download is done. -/
theorem denoisePlane_out (hC : C = {View.event .downloaded} ∨ C = {View.stream .stream}) :
    Follows .out C (denoisePlane b t m np) {View.stream .stream, .event (.coded b)} := by
  have hcode : ¬ (OfSet b .out ∨ Shared .out) := fun h => h.elim id id
  have hdownloaded : Follows .out C ([.wait .stream .downloaded] : Calls) {View.stream .stream} := by
    refine ⟨trivial, Set.singleton_subset_iff.mpr ?_⟩
    cases hC with
    | inl h => exact .inr ⟨rfl, h ▸ rfl⟩
    | inr h => exact .inl (h ▸ rfl)
  have hcoded : Follows .out {View.stream .stream} ([.record (.coded b) .stream] : Calls)
      {View.stream .stream, .event (.coded b)} := by
    simp [Follows, Allowed, cover, Set.insert_subset_iff]
  have hpacked : .event (.packed b) ∉ C := by rcases hC with rfl | rfl <;> simp
  have hdictionary : .event (.dictionary b) ∉ C := by rcases hC with rfl | rfl <;> simp
  exact ((((((denoisePlane_fronts id hpacked hdictionary).append
    (follows_of_spares (lsscCode_runs.spares hcode))).append
    (follows_of_spares (aggregate_runs.spares id))).append hdownloaded).append
    (lsscFinish_runs.follows (Set.mem_singleton _))).append hcoded)

/-- The plane's events may be recorded again. -/
structure Stable (b : Nat) (C : Set (View Lssc.Stream Event)) : Prop where
  uploaded : .event (.uploaded b) ∈ C → .stream .load ∈ C
  packed : .event (.packed b) ∈ C → .stream (.front b) ∈ C
  dictionary : .event (.dictionary b) ∈ C → .stream (.side b) ∈ C
  coded : .event (.coded b) ∈ C → .stream .stream ∈ C
  downloaded : .event .downloaded ∈ C → .stream .copy ∈ C

theorem denoisePlane_spares (hset : ¬ OfSet b l) (hshared : ¬ Shared l) (hout : l ≠ .out) (hC : Stable b C) :
    ∀ c ∈ denoisePlane b t m np, c.Spares l C := by
  have hcode : ¬ (OfSet b l ∨ Shared l) := fun h => h.elim hset hshared
  have hfinish : ¬ (OfSet b l ∨ Shared l ∨ l = .out) := fun h => h.elim hset fun h => h.elim hshared hout
  simp only [denoisePlane, List.mem_append, List.mem_cons, List.not_mem_nil, or_false]
  rintro c (((((((((( rfl | rfl) | hc) | rfl | rfl) | hc) | rfl | rfl) | hc) | hc) | rfl) | hc) | rfl)
  · trivial
  · trivial
  · exact lsscPack_runs.spares hset c hc
  · exact hC.packed
  · trivial
  · exact dictionary_runs.spares hset c hc
  · exact hC.dictionary
  · trivial
  · exact lsscCode_runs.spares hcode c hc
  · exact aggregate_runs.spares hshared c hc
  · trivial
  · exact lsscFinish_runs.spares hfinish c hc
  · exact hC.coded

end Plane

/-! ## A plane -/

section Frames

variable {d : Plan} {e : Lease} {plane b : Nat} {s : Slot} {l : Loc} {C : Set (View Lssc.Stream Event)}

theorem stagePlane_spares (hl : l ≠ region d e plane) : ∀ c ∈ stagePlane d e plane, c.Spares l C := by
  simp [stagePlane, Call.Spares, Work.locs, hl]

theorem finishDownload_spares (hl : l ≠ region d e plane) : ∀ c ∈ finishDownload d e plane, c.Spares l C := by
  simp [finishDownload, fetch, Call.Spares, Work.locs, hl]

/-- The thread of a request waits for its own copy. -/
theorem stagePlane_univ : Follows l Set.univ (stagePlane d e plane) Set.univ := by
  unfold stagePlane
  refine ⟨fun _ => Set.mem_univ _, trivial, fun v hv => ?_⟩
  simp only [cover]
  split
  · exact .inr rfl
  · exact .inl hv

theorem finishDownload_univ : Follows l Set.univ (finishDownload d e plane) Set.univ := by
  unfold finishDownload fetch
  refine ⟨fun _ => Set.mem_univ _, trivial, fun v hv => ?_⟩
  simp only [cover]
  split
  · exact .inr rfl
  · exact .inl hv

theorem upload_chain (hC : .stream .load ∈ C) : Follows l C (upload d e plane b s).1 {View.stream .load} := by
  have hlaunch : ∀ {C reads}, .stream .load ∈ C →
      Follows l C (launch .load (e.id, plane) [.input b] reads) {View.stream .load} := by
    intro C reads hC
    exact (launch_runs (K := fun _ => True) (fun _ _ => trivial) fun _ _ => trivial).follows hC
  unfold upload
  split
  · exact ((follows_of_spares GpuStream.waitInput_spares).append
      (follows_of_spares GpuStream.mapPlane_spares)).append (hlaunch hC)
  · split
    · exact hlaunch hC
    · exact hlaunch hC

theorem upload_spares (hinput : l ≠ .input b) (hregion : d.filter.slotGpu = false → l ≠ region d e plane) :
    ∀ c ∈ (upload d e plane b s).1, c.Spares l C := by
  have hlaunch : ∀ {reads}, l ∉ reads → ∀ c ∈ launch .load (e.id, plane) [.input b] reads, c.Spares l C := by
    intro reads hreads
    exact (launch_runs (K := fun l' => l' ≠ l) (by simpa using hinput.symm)
      fun l' hl' heq => hreads (heq ▸ hl')).spares (fun h => h rfl)
  intro c hc
  unfold upload at hc
  split at hc
  · simp only [List.mem_append] at hc
    rcases hc with (hc | hc) | hc
    · exact GpuStream.waitInput_spares c hc
    · exact GpuStream.mapPlane_spares c hc
    · exact hlaunch List.not_mem_nil c hc
  · next hgpu =>
    split at hc
    · exact hlaunch List.not_mem_nil c hc
    · exact hlaunch (by simpa using hregion (by simpa using hgpu)) c hc

/-- The stream of a plane's download. -/
def resultStream (d : Plan) : Lssc.Stream := if d.filter.slotGpu then .stream else d.filter.outStream

theorem download_chain (hC : .stream (resultStream d) ∈ C) :
    Follows l C (download d e plane s).1 {View.stream (resultStream d)} := by
  unfold download
  by_cases hgpu : d.filter.slotGpu
  · rw [resultStream, if_pos hgpu] at hC ⊢
    rw [if_pos hgpu]
    exact ((follows_of_spares GpuStream.mapPlane_spares).append
      ((fetch_runs (K := fun _ => True) trivial).follows hC)).append (follows_of_spares GpuStream.publish_spares)
  · rw [resultStream, if_neg hgpu] at hC ⊢
    rw [if_neg hgpu]
    split
    · exact (fetch_runs (K := fun _ => True) trivial).follows hC
    · exact (launch_runs (K := fun _ => True) (fun _ _ => trivial) fun _ _ => trivial).follows hC

theorem download_spares (hout : l ≠ .out) (hregion : d.filter.slotGpu = false → l ≠ region d e plane) :
    ∀ c ∈ (download d e plane s).1, c.Spares l C := by
  have hfetch : ∀ st, ∀ c ∈ [fetch st (e.id, plane) .out], c.Spares l C := fun st =>
    (fetch_runs (K := fun l' => l' ≠ l) hout.symm).spares fun h => h rfl
  intro c hc
  unfold download at hc
  split at hc
  · simp only [List.mem_append] at hc
    rcases hc with (hc | hc) | hc
    · exact GpuStream.mapPlane_spares c hc
    · exact hfetch _ c hc
    · exact GpuStream.publish_spares c hc
  · next hgpu =>
    split at hc
    · exact hfetch _ c hc
    · exact (launch_runs (K := fun l' => l' ≠ l) (by simpa using (hregion (by simpa using hgpu)).symm)
        (by simpa using hout.symm)).spares (fun h => h rfl) c hc

theorem settlePlane_spares (hregion : d.filter.slotGpu = false → l ≠ region d e plane)
    (hC : .event .downloaded ∈ C → .stream .copy ∈ C) : ∀ c ∈ settlePlane d e plane, c.Spares l C := by
  intro c hc
  unfold settlePlane at hc
  split at hc
  · rw [List.mem_singleton] at hc
    subst hc
    exact hC
  · cases List.mem_cons.mp hc with
    | inl heq =>
      subst heq
      trivial
    | inr hmem =>
      split at hmem
      · next hstaged =>
        rw [Bool.and_eq_true] at hstaged
        exact finishDownload_spares (hregion (by simpa using hstaged.1)) c hmem
      · cases hmem

/-- A plane is staged in its slot where there is one region. -/
def stagedPlane (d : Plan) (e : Lease) (plane : Nat) : Calls :=
  if !d.filter.whole && !d.filter.gpu && !e.request.directIn plane then stagePlane d e plane else []

theorem stagedPlane_spares (hregion : d.filter.slotGpu = false → l ≠ region d e plane) :
    ∀ c ∈ stagedPlane d e plane, c.Spares l C := by
  unfold stagedPlane
  split
  · next hstaged =>
    rw [Bool.and_eq_true, Bool.and_eq_true] at hstaged
    exact stagePlane_spares (hregion (by simp [Lssc.Filter.slotGpu, by simpa using hstaged.1.2]))
  · exact List.forall_mem_nil _

theorem stagedPlane_univ : Follows l Set.univ (stagedPlane d e plane) Set.univ := by
  unfold stagedPlane
  split
  · exact stagePlane_univ
  · exact subset_rfl

theorem filterPlane_follows {C₁ C₂ C₃ C₄ C₅ : Set (View Lssc.Stream Event)}
    (h₁ : Follows l C (stagedPlane d e plane) C₁)
    (h₂ : ∀ s', Follows l C₁ ([.wait .load (.coded s.turn)] ++ (upload d e plane s.turn s').1 ++
      [.record (.uploaded s.turn) .load]) C₂)
    (h₃ : Follows l C₂ (denoisePlane s.turn (e.id, plane) d.m (d.np plane)) C₃)
    (h₄ : ∀ s', Follows l C₃ ((if d.filter.whole then [.wait .copy (.coded s.turn)] else []) ++
      (download d e plane s').1) C₄)
    (h₅ : Follows l C₄ (settlePlane d e plane) C₅) : Follows l C (filterPlane d e plane s).1 C₅ :=
  (((h₁.append (h₂ _)).append h₃).append (h₄ _)).append h₅

theorem uploaded_chain (hC : .event (.coded b) ∈ C ∨ .stream .load ∈ C) :
    Follows l C ([.wait .load (.coded b)] ++ (upload d e plane b s).1 ++ [.record (.uploaded b) .load])
      {View.event (.uploaded b)} := by
  have hwait : Follows l C ([.wait .load (.coded b)] : Calls) {View.stream .load} := by
    refine ⟨trivial, Set.singleton_subset_iff.mpr ?_⟩
    cases hC with
    | inl h => exact .inr ⟨rfl, h⟩
    | inr h => exact .inl h
  exact (hwait.append (upload_chain (Set.mem_singleton _))).append (follows_record (Set.mem_singleton _))

theorem uploaded_spares (hinput : l ≠ .input b) (hregion : d.filter.slotGpu = false → l ≠ region d e plane)
    (hC : .event (.uploaded b) ∈ C → .stream .load ∈ C) :
    ∀ c ∈ ([.wait .load (.coded b)] ++ (upload d e plane b s).1 ++ [.record (.uploaded b) .load] : Calls),
      c.Spares l C := by
  intro c hc
  simp only [List.mem_append, List.mem_singleton] at hc
  rcases hc with (rfl | hc) | rfl
  · trivial
  · exact upload_spares hinput hregion c hc
  · exact hC

theorem downloaded_spares (hout : l ≠ .out) (hregion : d.filter.slotGpu = false → l ≠ region d e plane) :
    ∀ c ∈ ((if d.filter.whole then [.wait .copy (.coded b)] else []) ++ (download d e plane s).1 : Calls),
      c.Spares l C := by
  intro c hc
  cases List.mem_append.mp hc with
  | inl hc =>
    split at hc
    · rw [List.mem_singleton] at hc
      subst hc
      trivial
    · cases hc
  | inr hc => exact download_spares hout hregion c hc

/-- The download is behind the coding. -/
theorem downloaded_chain : Follows l {View.stream .stream, .event (.coded b)}
    ((if d.filter.whole then [.wait .copy (.coded b)] else []) ++ (download d e plane s).1)
      {View.stream (resultStream d)} := by
  have hwait : Follows l {View.stream .stream, .event (.coded b)}
      (if d.filter.whole then [.wait .copy (.coded b)] else [] : Calls) {View.stream (resultStream d)} := by
    unfold resultStream Lssc.Filter.outStream
    split <;> split <;> simp [Follows, cover, Allowed]
  exact hwait.append (download_chain (Set.mem_singleton _))

/-! ### What covers a buffer between planes -/

def outCover (d : Plan) : Set (View Lssc.Stream Event) :=
  if d.filter.whole && !d.filter.slotGpu then {View.event .downloaded} else {View.stream .stream}

theorem outCover_cases (d : Plan) :
    outCover d = {View.event .downloaded} ∨ outCover d = {View.stream .stream} := by
  unfold outCover
  split
  · exact .inl rfl
  · exact .inr rfl

theorem ofSet_ne_region {q : Nat} (h : OfSet b l) : d.filter.slotGpu = false → l ≠ region d e q := by
  rintro - rfl
  exact h

theorem ofSet_ne_out (h : OfSet b l) : l ≠ .out := by
  rintro rfl
  exact h

/-- The buffers of a set are covered by its last coding. -/
theorem filterPlane_turn (hl : OfSet s.turn l) : Follows l {View.event (.coded s.turn)} (filterPlane d e plane s).1
    {View.event (.coded s.turn)} := by
  refine filterPlane_follows (follows_of_spares (stagedPlane_spares (ofSet_ne_region hl)))
    (fun s' => uploaded_chain (.inl rfl)) (denoisePlane_chain (.inl rfl)) (fun s' => ?_)
    (follows_of_spares (settlePlane_spares (ofSet_ne_region hl) (by simp)))
  exact (follows_of_spares (downloaded_spares (ofSet_ne_out hl) (ofSet_ne_region hl))).mono subset_rfl (by simp)

/-- A buffer that the plane has nothing to do with. -/
theorem filterPlane_forall (hset : ¬ OfSet s.turn l) (hshared : ¬ Shared l) (hout : l ≠ .out)
    (hregion : d.filter.slotGpu = false → l ≠ region d e plane) (hC : Stable s.turn C) :
    ∀ c ∈ (filterPlane d e plane s).1, c.Spares l C := by
  have hinput : l ≠ .input s.turn := fun heq => hset (heq ▸ rfl)
  intro c hc
  rcases List.mem_append.mp hc with hc | hc
  · rcases List.mem_append.mp hc with hc | hc
    · rcases List.mem_append.mp hc with hc | hc
      · rcases List.mem_append.mp hc with hc | hc
        · exact stagedPlane_spares hregion c hc
        · exact uploaded_spares hinput hregion hC.uploaded c hc
      · exact denoisePlane_spares hset hshared hout hC c hc
    · exact downloaded_spares hout hregion c hc
  · exact settlePlane_spares hregion hC.downloaded c hc

theorem filterPlane_spares (hset : ¬ OfSet s.turn l) (hshared : ¬ Shared l) (hout : l ≠ .out)
    (hregion : d.filter.slotGpu = false → l ≠ region d e plane) (hC : Stable s.turn C) :
    Follows l C (filterPlane d e plane s).1 C :=
  follows_of_spares (filterPlane_forall hset hshared hout hregion hC)

theorem ofSet_inj {c : Nat} (h : OfSet b l) (h' : OfSet c l) : b = c := by
  cases l <;> first | exact h.symm.trans h' | exact h.elim

theorem ofSet_not_shared (h : OfSet b l) : ¬ Shared l := by
  intro h'
  cases l <;> first | exact h | exact h'

theorem filterPlane_set (hl : OfSet b l) :
    Follows l {View.event (.coded b)} (filterPlane d e plane s).1 {View.event (.coded b)} := by
  by_cases hb : b = s.turn
  · subst hb
    exact filterPlane_turn hl
  · refine filterPlane_spares (fun h => hb (ofSet_inj hl h)) (ofSet_not_shared hl) (ofSet_ne_out hl)
      (ofSet_ne_region hl) ⟨?_, ?_, ?_, ?_, ?_⟩
    all_goals simp [Ne.symm hb]

theorem filterPlane_shared (hl : Shared l) :
    Follows l {View.stream .stream} (filterPlane d e plane s).1 {View.stream .stream} := by
  have hregion : d.filter.slotGpu = false → l ≠ region d e plane := by
    rintro - rfl
    exact hl
  have hout : l ≠ .out := by
    rintro rfl
    exact hl
  have hinput : l ≠ .input s.turn := by
    rintro rfl
    exact hl
  exact filterPlane_follows (follows_of_spares (stagedPlane_spares hregion))
    (fun s' => follows_of_spares (uploaded_spares hinput hregion (by simp))) (denoisePlane_shared hl)
    (fun s' => follows_of_spares (downloaded_spares hout hregion))
    (follows_of_spares (settlePlane_spares hregion (by simp)))

theorem filterPlane_out : Follows .out (outCover d) (filterPlane d e plane s).1 (outCover d) := by
  have hregion : d.filter.slotGpu = false → .out ≠ region d e plane := fun _ => by rintro ⟨⟩
  have hsettle : Follows .out {View.stream (resultStream d)} (settlePlane d e plane) (outCover d) := by
    unfold settlePlane outCover resultStream Lssc.Filter.outStream
    cases hw : d.filter.whole with
    | true => cases hg : d.filter.slotGpu <;> simp [Follows, cover, Allowed]
    | false =>
      have hall : cover .out {View.stream .stream} (.syncStream .stream : Call Lssc.Stream Event Loc Tag) =
          Set.univ := Set.eq_univ_of_forall fun v => .inr rfl
      simp only [Bool.false_eq_true, if_false, Bool.false_and, ite_self]
      refine ⟨trivial, ?_⟩
      rw [hall]
      split
      · exact finishDownload_univ.mono subset_rfl (Set.subset_univ _)
      · exact Set.subset_univ _
  refine filterPlane_follows (follows_of_spares (stagedPlane_spares hregion))
    (fun s' => follows_of_spares (uploaded_spares (by rintro ⟨⟩) hregion ?_)) (denoisePlane_out (outCover_cases d))
    (fun s' => downloaded_chain)
    hsettle
  cases outCover_cases d with
  | inl h => simp [h]
  | inr h => simp [h]

/-- What covers a staging region that the slot is done with. -/
def planeCover (d : Plan) : Set (View Lssc.Stream Event) :=
  if d.filter.whole then {View.stream .copy} else Set.univ

theorem stable_univ : Stable b Set.univ := by
  constructor <;> exact fun _ => Set.mem_univ _

theorem stable_planeCover : Stable b (planeCover d) := by
  unfold planeCover
  split
  · constructor <;> simp
  · exact stable_univ

/-- A region is read by the upload, and takes the result once that is done. -/
theorem filterPlane_region (hgpu : d.filter.slotGpu = false) :
    Follows (region d e plane) Set.univ (filterPlane d e plane s).1 (planeCover d) := by
  have hsettle : Follows (region d e plane) {View.stream (resultStream d)} (settlePlane d e plane) (planeCover d) := by
    unfold settlePlane planeCover resultStream Lssc.Filter.outStream
    simp only [hgpu, Bool.false_eq_true, if_false]
    cases hw : d.filter.whole with
    | true => simp [Follows, cover, Allowed]
    | false =>
      have hall : cover (region d e plane) {View.stream .stream}
          (.syncStream .stream : Call Lssc.Stream Event Loc Tag) = Set.univ :=
        Set.eq_univ_of_forall fun v => .inr rfl
      simp only [Bool.false_eq_true, if_false]
      refine ⟨trivial, ?_⟩
      rw [hall]
      split
      · exact finishDownload_univ
      · exact subset_rfl
  exact filterPlane_follows stagedPlane_univ (fun s' => uploaded_chain (.inl (Set.mem_univ _)))
    (denoisePlane_chain (.inl rfl)) (fun s' => downloaded_chain) hsettle

end Frames

/-! ## A frame -/

section Frame

variable {d : Plan} {e : Lease} {plane b : Nat} {s : Slot} {l : Loc} {C C' : Set (View Lssc.Stream Event)}
  {f : Nat → Slot → Calls × Slot} {planes : List Nat}

theorem overPlanes_follows (h : ∀ plane ∈ planes, ∀ s, Follows l C (f plane s).1 C) :
    Follows l C (overPlanes f planes s).1 C := by
  induction planes generalizing s with
  | nil => exact subset_rfl
  | cons plane planes ih =>
    exact (h plane List.mem_cons_self s).append (ih fun plane' h' => h plane' (List.mem_cons_of_mem _ h'))

theorem overPlanes_forall {P : Call Lssc.Stream Event Loc Tag → Prop}
    (h : ∀ plane ∈ planes, ∀ s, ∀ c ∈ (f plane s).1, P c) : ∀ c ∈ (overPlanes f planes s).1, P c := by
  induction planes generalizing s with
  | nil => exact nofun
  | cons plane planes ih =>
    intro c hc
    cases List.mem_append.mp hc with
    | inl hc => exact h plane List.mem_cons_self s c hc
    | inr hc => exact ih (fun plane' h' => h plane' (List.mem_cons_of_mem _ h')) c hc

/-- One of the planes is the location's own. -/
theorem overPlanes_own {q : Nat} (hq : q ∈ planes) (hnodup : planes.Nodup)
    (hbefore : ∀ plane ∈ planes, plane ≠ q → ∀ s, Follows l C (f plane s).1 C) (hown : ∀ s, Follows l C (f q s).1 C')
    (hafter : ∀ plane ∈ planes, plane ≠ q → ∀ s, Follows l C' (f plane s).1 C') :
    Follows l C (overPlanes f planes s).1 C' := by
  induction planes generalizing s with
  | nil => cases hq
  | cons plane planes ih =>
    obtain ⟨hfirst, hrest⟩ := List.nodup_cons.mp hnodup
    by_cases hplane : plane = q
    · subst hplane
      refine (hown s).append (overPlanes_follows fun p hp => ?_)
      exact hafter p (List.mem_cons_of_mem _ hp) fun h => hfirst (h ▸ hp)
    · refine (hbefore plane List.mem_cons_self hplane s).append (ih ?_ hrest ?_ ?_)
      · exact (List.mem_cons.mp hq).resolve_left fun h => hplane h.symm
      · exact fun p hp => hbefore p (List.mem_cons_of_mem _ hp)
      · exact fun p hp => hafter p (List.mem_cons_of_mem _ hp)

theorem copyPlane_spares : ∀ c ∈ (copyPlane d e plane s).1, c.Spares l C := by
  intro c hc
  simp only [copyPlane, List.mem_append] at hc
  rcases hc with ((hc | hc) | hc) | hc
  · exact GpuStream.waitInput_spares c hc
  · exact GpuStream.mapPlane_spares c hc
  · exact GpuStream.mapPlane_spares c hc
  · exact GpuStream.publish_spares c hc

theorem copyPlanes_forall : ∀ c ∈ (copyPlanes d e s).1, c.Spares l C := by
  unfold copyPlanes
  split
  · exact overPlanes_forall fun plane _ s => copyPlane_spares
  · exact nofun

theorem record_done_spares (hC : .event (.done e.set) ∈ C → .stream .copy ∈ C) :
    Follows l C (if d.filter.whole then [.record (.done e.set) .copy] else [] : Calls) C := by
  split
  · refine follows_of_spares fun c hc => ?_
    rw [List.mem_singleton] at hc
    subst hc
    exact hC
  · exact subset_rfl

/-- The frame keeps what every one of its planes keeps. -/
theorem queueFrame_follows (h : ∀ plane s, Follows l C (filterPlane d e plane s).1 C)
    (hdone : .event (.done e.set) ∈ C → .stream .copy ∈ C) : Follows l C (queueFrame d e s).1 C :=
  ((follows_of_spares copyPlanes_forall).append (overPlanes_follows fun plane _ s => h plane s)).append
    (record_done_spares hdone)

/-- What covers a staging set whose request has had its slot. -/
def doneCover (d : Plan) (g : Nat) : Set (View Lssc.Stream Event) :=
  if d.filter.whole then {View.event (.done g)} else Set.univ

theorem doneCover_cases (d : Plan) (g : Nat) :
    doneCover d g = {View.event (.done g)} ∨ doneCover d g = Set.univ := by
  unfold doneCover
  split
  · exact .inl rfl
  · exact .inr rfl

theorem stable_doneCover {g : Nat} : Stable b (doneCover d g) := by
  rcases doneCover_cases d g with h | h
  · rw [h]
    constructor <;> simp
  · rw [h]
    exact stable_univ

theorem region_eq_iff {g reg q : Nat} : Loc.staging g reg = region d e q ↔ g = e.set ∧ reg = d.filter.region q := by
  simp [region]

theorem filterPlane_other {g reg : Nat} (hne : d.filter.slotGpu = false → Loc.staging g reg ≠ region d e plane)
    (hC : ∀ b, Stable b C) : Follows (.staging g reg) C (filterPlane d e plane s).1 C :=
  filterPlane_spares id id nofun hne (hC _)

theorem planes_staging {reg : Nat} (hgpu : d.filter.slotGpu = false) :
    Follows (.staging e.set reg) Set.univ (overPlanes (filterPlane d e) d.filter.filtered s).1 (planeCover d) := by
  have hother : ∀ {C}, (∀ b, Stable b C) → ∀ plane, d.filter.region plane ≠ reg → ∀ s,
      Follows (.staging e.set reg) C (filterPlane d e plane s).1 C := fun hC plane hne s =>
    filterPlane_other (fun _ h => hne (region_eq_iff.mp h).2.symm) hC
  by_cases hex : d.filter.whole ∧ ∃ q ∈ d.filter.filtered, d.filter.region q = reg
  · obtain ⟨hw, q, hq, rfl⟩ := hex
    have hne : ∀ plane ∈ d.filter.filtered, plane ≠ q → d.filter.region plane ≠ d.filter.region q :=
      fun plane hplane hne => Lssc.region_ne hw hq hplane hne
    exact overPlanes_own hq Lssc.filtered_nodup
      (fun plane hplane h s => hother (fun _ => stable_univ) plane (hne plane hplane h) s)
      (fun s => filterPlane_region hgpu)
      (fun plane hplane h s => hother (fun _ => stable_planeCover) plane (hne plane hplane h) s)
  · refine (overPlanes_follows fun plane hplane s => ?_).mono subset_rfl (Set.subset_univ _)
    by_cases hr : d.filter.region plane = reg
    · subst hr
      have hw : d.filter.whole = false := by
        by_contra h
        exact hex ⟨by simpa using h, plane, hplane, rfl⟩
      have hregion : Follows (region d e plane) Set.univ (filterPlane d e plane s).1 (planeCover d) :=
        filterPlane_region hgpu
      rw [planeCover, hw] at hregion
      exact hregion
    · exact hother (fun _ => stable_univ) plane hr s

theorem record_done_follows (h : planeCover d ⊆ C) :
    Follows l C (if d.filter.whole then [.record (.done e.set) .copy] else [] : Calls) (doneCover d e.set) := by
  refine Follows.mono ?_ h subset_rfl
  unfold planeCover doneCover
  split <;> simp [Follows, cover, Allowed]

/-- The regions of the request's own set. -/
theorem queueFrame_own {reg : Nat} :
    Follows (.staging e.set reg) Set.univ (queueFrame d e s).1 (doneCover d e.set) := by
  refine ((follows_of_spares copyPlanes_forall).append ?_).append (record_done_follows subset_rfl)
  cases hgpu : d.filter.slotGpu with
  | false => exact planes_staging hgpu
  | true =>
    refine (overPlanes_follows fun plane _ s => ?_).mono subset_rfl (Set.subset_univ _)
    exact filterPlane_other (fun h => by simp [hgpu] at h) fun _ => stable_univ

end Frame

/-! ## Whole runs -/

section Whole

variable {d : Plan} {e : Lease} {s : Slot} {l : Loc} {C : Set (View Lssc.Stream Event)} {t : Run}

/-- What covers a buffer between frames; the regions of a leased set are covered by their own events. -/
def slotCover (d : Plan) : Loc → Set (View Lssc.Stream Event)
  | .input b | .patches b | .dict b | .transpose b | .gram b | .invNorm b | .sampleY b | .sampleA b | .sampleR b
  | .ksvdSync b | .sources b => {View.event (.coded b)}
  | .out => outCover d
  | .staging _ _ | .source _ _ => Set.univ
  | _ => {View.stream .stream}

def restCover (d : Plan) (leases : Nat → Option Lease) : Loc → Set (View Lssc.Stream Event)
  | .staging g _ => if (leases g).any (·.entered) then doneCover d g else Set.univ
  | l => slotCover d l

theorem kinds (d : Plan) (l : Loc) : (∃ b, OfSet b l ∧ slotCover d l = {View.event (.coded b)}) ∨
    (Shared l ∧ slotCover d l = {View.stream .stream}) ∨ l = .out ∨ (∃ g reg, l = .staging g reg) ∨
      ∃ i plane, l = .source i plane := by
  cases l <;> simp [OfSet, Shared, slotCover]

/-- A frame leaves the buffers of the slot covered as it found them. -/
theorem queueFrame_slot (hl : ∀ g reg, l ≠ .staging g reg) :
    Follows l (slotCover d l) (queueFrame d e s).1 (slotCover d l) := by
  rcases kinds d l with ⟨b, hset, hcover⟩ | ⟨hshared, hcover⟩ | rfl | ⟨g, reg, rfl⟩ | ⟨i, plane, rfl⟩
  · rw [hcover]
    exact queueFrame_follows (fun plane s => filterPlane_set hset) (by simp)
  · rw [hcover]
    exact queueFrame_follows (fun plane s => filterPlane_shared hshared) (by simp)
  · refine queueFrame_follows (fun plane s => filterPlane_out) ?_
    change _ ∈ outCover d → _ ∈ outCover d
    rcases outCover_cases d with h | h <;> simp [h]
  · exact absurd rfl (hl g reg)
  · exact queueFrame_follows (fun plane s => filterPlane_spares id id nofun (fun _ => nofun) stable_univ)
      fun _ => Set.mem_univ _

/-- The sets of the other requests. -/
theorem queueFrame_others {g reg : Nat} (hne : g ≠ e.set) (hC : C = doneCover d g ∨ C = Set.univ) :
    Follows (.staging g reg) C (queueFrame d e s).1 C := by
  refine queueFrame_follows (fun plane s => filterPlane_other (fun _ h => hne (region_eq_iff.mp h).1) fun b => ?_) ?_
  · rcases hC with rfl | rfl
    · exact stable_doneCover
    · exact stable_univ
  · rcases hC with rfl | rfl
    · rcases doneCover_cases d g with h | h <;> simp [h, hne.symm]
    · exact fun _ => Set.mem_univ _

theorem stageIn_forall (hl : ∀ reg, l ≠ .staging e.set reg) : ∀ c ∈ stageIn d e, c.Spares l C := by
  intro c hc
  obtain ⟨plane, -, hc⟩ := List.mem_flatMap.mp hc
  split at hc
  · exact stagePlane_spares (hl _) c hc
  · cases hc

theorem stageIn_univ : Follows l Set.univ (stageIn d e) Set.univ := by
  refine Follows.flatMap fun plane _ => ?_
  split
  · exact stagePlane_univ
  · exact subset_rfl

theorem finishFrame_forall (hl : ∀ reg, l ≠ .staging e.set reg) : ∀ c ∈ finishFrame d e, c.Spares l C := by
  intro c hc
  unfold finishFrame at hc
  split at hc
  · cases List.mem_cons.mp hc with
    | inl heq =>
      subst heq
      trivial
    | inr hmem =>
      obtain ⟨plane, -, hc⟩ := List.mem_flatMap.mp hmem
      split at hc
      · cases hc
      · exact finishDownload_spares (hl _) c hc
  · cases hc

/-- The request waits for the event of its set. -/
theorem finishFrame_own {reg : Nat} : Follows (.staging e.set reg) (doneCover d e.set) (finishFrame d e) Set.univ := by
  unfold finishFrame doneCover
  split
  · have hall : cover (.staging e.set reg) {View.event (.done e.set)}
        (.syncEvent (.done e.set) : Call Lssc.Stream Event Loc Tag) = Set.univ :=
      Set.eq_univ_of_forall fun v => .inr rfl
    refine ⟨trivial, ?_⟩
    rw [hall]
    refine Follows.flatMap fun plane _ => ?_
    split
    · exact subset_rfl
    · exact finishDownload_univ
  · exact subset_rfl

structure Inv (d : Plan) (t : Run) : Prop where
  set : ∀ g e, t.leases g = some e → e.set = g
  follows : ∀ l, Follows l Set.univ t.calls (restCover d t.leases l)

theorem restCover_cases (d : Plan) (leases : Nat → Option Lease) (g reg : Nat) :
    restCover d leases (.staging g reg) = doneCover d g ∨ restCover d leases (.staging g reg) = Set.univ := by
  simp only [restCover]
  split
  · exact .inl rfl
  · exact .inr rfl

/-- The cover of what is not a region of the set whose lease changes. -/
theorem restCover_update {leases : Nat → Option Lease} {g : Nat} {lease : Option Lease}
    (hl : ∀ reg, l ≠ .staging g reg) : restCover d (Function.update leases g lease) l = restCover d leases l := by
  cases l with
  | staging g' reg =>
    have hne : g' ≠ g := fun h => hl reg (h ▸ rfl)
    simp only [restCover]
    rw [Function.update_of_ne hne]
  | _ => rfl

theorem Inv.step (h : Inv d t) (x : Step) : Inv d (t.step d x) := by
  have hset : ∀ {g : Nat} {lease : Option Lease}, (∀ e, lease = some e → e.set = g) →
      ∀ g' e, Function.update t.leases g lease g' = some e → e.set = g' := by
    intro g lease hlease g' e he
    by_cases hg : g' = g
    · subst hg
      rw [Function.update_self] at he
      exact hlease e he
    · rw [Function.update_of_ne hg] at he
      exact h.set g' e he
  cases x with
  | acquire g r =>
    unfold Run.step
    dsimp only
    split
    · exact h
    · next hfree =>
      refine ⟨hset fun e he => (Option.some.inj he) ▸ rfl, fun l => (h.follows l).append ?_⟩
      dsimp only
      by_cases hl : ∀ reg, l ≠ .staging g reg
      · rw [restCover_update hl]
        exact follows_of_spares (stageIn_forall hl)
      · obtain ⟨reg, hreg⟩ := not_forall.mp hl
        obtain rfl := not_not.mp hreg
        have hbefore : restCover d t.leases (.staging g reg) = Set.univ := by simp [restCover, hfree]
        have hafter : restCover d (Function.update t.leases g (some ⟨g, t.count, r, false⟩)) (.staging g reg) =
            Set.univ := by simp [restCover]
        rw [hbefore, hafter]
        exact stageIn_univ
  | enter g =>
    unfold Run.step
    dsimp only
    split
    · exact h
    · next e he =>
      obtain rfl := h.set g e he
      split
      · exact h
      · next hentered =>
        refine ⟨hset fun e' he' => (Option.some.inj he') ▸ rfl, fun l => (h.follows l).append ?_⟩
        dsimp only
        by_cases hl : ∀ reg, l ≠ .staging e.set reg
        · rw [restCover_update hl]
          cases l with
          | staging g reg =>
            have hne : g ≠ e.set := fun heq => hl reg (heq ▸ rfl)
            exact queueFrame_others hne (restCover_cases d t.leases g reg)
          | _ => exact queueFrame_slot nofun
        · obtain ⟨reg, hreg⟩ := not_forall.mp hl
          obtain rfl := not_not.mp hreg
          have hbefore : restCover d t.leases (.staging e.set reg) = Set.univ := by simp [restCover, he, hentered]
          have hafter : restCover d (Function.update t.leases e.set (some { e with entered := true }))
              (.staging e.set reg) = doneCover d e.set := by simp [restCover]
          rw [hbefore, hafter]
          exact queueFrame_own
  | leave g =>
    unfold Run.step
    dsimp only
    split
    · exact h
    · next e he =>
      obtain rfl := h.set g e he
      split
      · next hentered =>
        refine ⟨hset nofun, fun l => (h.follows l).append ?_⟩
        dsimp only
        by_cases hl : ∀ reg, l ≠ .staging e.set reg
        · rw [restCover_update hl]
          exact follows_of_spares (finishFrame_forall hl)
        · obtain ⟨reg, hreg⟩ := not_forall.mp hl
          obtain rfl := not_not.mp hreg
          have hbefore : restCover d t.leases (.staging e.set reg) = doneCover d e.set := by
            simp [restCover, he, hentered]
          have hafter : restCover d (Function.update t.leases e.set none) (.staging e.set reg) = Set.univ := by
            simp [restCover]
          rw [hbefore, hafter]
          exact finishFrame_own
      · exact h

theorem run_inv (s : Slot) (steps : List Step) : Inv d (run d s steps) := by
  induction steps using List.reverseRecOn with
  | nil =>
    refine ⟨nofun, fun l => ?_⟩
    exact Set.subset_univ _
  | append_singleton steps x ih =>
    rw [run, List.foldl_append]
    exact ih.step x

theorem run_safe (s : Slot) (steps : List Step) : Safe (run d s steps).calls :=
  safe_of_follows fun l => ⟨_, (run_inv s steps).follows l⟩

end Whole

end NssFactory.Cuda.SlotPipeline

import NssFactory.Cpu.NlhFull

/-!
# The image filter of NLH

`nlh_pass` filters the channels of one geometry with the indices matched on their guide: each
group's sums are added where its patches lie. The denominators of a group are the counts of its
index table, whatever the noise of a channel, so the channels of one geometry keep the same
denominators (`nlhPass_denominators`), and the colour conversion after `nlh_image` finds them
equal (`nlh_shared_denominators`).
-/

namespace NssFactory.Cpu.NlhImage

open NlhFull

/-- The arithmetic of the image loops. -/
structure ImageArith (D : Type) extends GroupArith F32 D where
  sub : D → D → D
  div : D → D → D
  abs : D → D
  lt : D → D → Bool
  maxFloat : D
  toFloat : D → F32

structure NlhImageOptions (D : Type) where
  block : Nat → Int
  step : Nat → Int
  group : Nat → Int
  q : Nat → Nat
  window : Nat → Int
  basic_iterations : Nat
  basic_mix : D
  radius : Int
  ps_num : Int
  ps_range : Int
  hard_strength : D
  wiener_iterations : Int
  wiener_sigma_scale : D

/-- What the filter calls: the searches, the guide of a smaller plane, the transforms. -/
structure Tools (D : Type) where
  arith : ImageArith D
  transforms : Transforms F32 D
  area_guide : ImagePlane → (width height : Int) → ImagePlane
  image_match : ImageSearch → (guides : Nat → ImagePlane) → (frames : Nat) → (width height t0 x y : Int) →
    Except String (List Match)
  pixel_match : (Nat → F32) → (m n lda q : Nat) → Nat → Int

/-- The arguments of a pass. -/
structure Pass (D : Type) where
  data : ImageSequence
  basic : ImageSequence
  external : Option ImageSequence
  planes : Nat
  center : Nat
  stage : Nat
  options : NlhImageOptions D
  wiener : Bool

structure State (D : Type) where
  accum : Nat × Nat → AccumPlane D
  work : Nat → NlhWorkspace F32 D
  groups : Nat

section Code

variable {D : Type} (tools : Tools D)

/-- `add_pixel_matrix`. -/
def addPixelMatrix (p : AccumPlane D) (x y : Int) (block : Nat) (num den : Nat → D) : AccumPlane D :=
  let placed (values : Nat → D) : List (Nat × D) :=
    (List.range block).flatMap fun iy : Nat => (List.range block).map fun ix : Nat =>
      (((y + (iy : Int)) * p.width + x + (ix : Int)).toNat, values (iy * block + ix))
  { p with
    numerator := Lines.addAll tools.arith.add (placed num) p.numerator
    denominator := Lines.addAll tools.arith.add (placed den) p.denominator }

/-- `while (n * 2 <= found) n *= 2;`, `fuel` rounds at most. -/
def doubled (found : Nat) : Nat → Nat → Nat
  | 0, n => n
  | fuel + 1, n => if n * 2 ≤ found then doubled found fuel (n * 2) else n

/-- A query that has found its matches: the first `n` of them, as columns of `m` samples. -/
structure Found where
  patch : Nat → Match
  n : Nat

def noMatch : Match := ⟨0, 0, 0, F32.zero, 0⟩

variable (p : Pass D)

def Pass.block : Nat := (p.options.block p.stage).toNat

def Pass.m : Nat := p.block * p.block

/-- The patches of a query, packed one after the other from the planes `plane` gives their frames. -/
def packed (width height : Int) (found : Found) (plane : Nat → ImagePlane) : Nat → F32 := fun i =>
  let mm := found.patch (i / p.m)
  packPatch (plane mm.t.toNat) width mm.x mm.y (p.options.block p.stage) width height (i % p.m)

/-- The planes of one geometry. -/
structure Geometry where
  channels : List Nat
  width : Int
  height : Int

def groupOptions (t0 channel : Nat) : NlhGroupOptions D where
  q := p.options.q p.stage
  sigma := tools.arith.ofFloat ((p.data.frames t0).sigma channel)
  wiener := p.wiener
  hard_strength := p.options.hard_strength
  wiener_iterations := p.options.wiener_iterations
  wiener_sigma_scale := p.options.wiener_sigma_scale

def channelGroup (geo : Geometry) (found : Found) (channel : Nat) : PixelGroup F32 where
  input := packed p geo.width geo.height found fun t => (p.data.frames t).planes channel
  reference :=
    if p.wiener then some (packed p geo.width geo.height found fun t => (p.basic.frames t).planes channel) else none
  m := p.m
  n := found.n
  lda := p.m

/-- The channels one after the other, each in its own workspace. -/
def filterChannels (geo : Geometry) (found : Found) (table : Nat → Int) (t0 : Nat)
    (work : Nat → NlhWorkspace F32 D) : Except String (Nat → NlhWorkspace F32 D) :=
  geo.channels.zipIdx.foldlM (fun work c => do
    let w ← nlhFilterFull tools.arith.toGroupArith tools.transforms (channelGroup p geo found c.1)
      (groupOptions tools p t0 c.1) tools.pixel_match (some table) (work c.2)
    return Function.update work c.2 w) work

/-- The sums of a channel, added where the patches lie. -/
def addChannel (found : Found) (accum : Nat × Nat → AccumPlane D) (channel : Nat) (w : NlhWorkspace F32 D) :
    Nat × Nat → AccumPlane D :=
  (List.range found.n).foldl (fun accum j =>
    let mm := found.patch j
    Function.update accum (mm.t.toNat, channel) (addPixelMatrix tools (accum (mm.t.toNat, channel)) mm.x mm.y p.block
      (fun i => w.numerator (j * p.m + i)) fun i => w.denominator (j * p.m + i))) accum

/-- The reference patch at `(x, y)` of frame `t0`. -/
def query (geo : Geometry) (guides : Nat → ImagePlane) (t0 : Nat) (s : State D) (place : Int × Int) :
    Except String (State D) := do
  let o := p.options
  let matches' ← tools.image_match
    ⟨o.block p.stage, o.group p.stage, o.window p.stage, o.radius, o.ps_num, o.ps_range⟩ guides p.data.size
    geo.width geo.height t0 place.1 place.2
  let found : Found := ⟨fun j => matches'.getD j noMatch, doubled matches'.length matches'.length 1⟩
  let guide := packed p geo.width geo.height found guides
  let table := tools.pixel_match guide p.m found.n p.m (o.q p.stage)
  let work ← filterChannels tools p geo found table t0 s.work
  return { s with
    work := work
    accum := geo.channels.zipIdx.foldl (fun accum c => addChannel tools p found accum c.1 (work c.2)) s.accum
    groups := s.groups + geo.channels.length }

def Pass.matching : ImageSequence := p.external.getD (if p.wiener then p.basic else p.data)

/-- The guide of frame `t`: the first plane, resized where it has another size. -/
def guide (geo : Geometry) (t : Nat) : ImagePlane :=
  let luma := (p.matching.frames t).planes 0
  if luma.width = geo.width ∧ luma.height = geo.height then luma else tools.area_guide luma geo.width geo.height

def size (c : Nat) : Int × Int :=
  (((p.data.frames p.center).planes c).width, ((p.data.frames p.center).planes c).height)

/-- The planes from `first` on that have its size and are not used yet. -/
def geometry (used : Nat → Bool) (first : Nat) : Geometry where
  channels := (List.range p.planes).filter fun c => first ≤ c ∧ used c = false ∧ size p c = size p first
  width := (size p first).1
  height := (size p first).2

def allOff (geo : Geometry) : Bool :=
  (List.range p.data.size).all fun t => geo.channels.all fun c =>
    tools.arith.eq (tools.arith.ofFloat ((p.data.frames t).sigma c)) (tools.arith.ofNat 0)

def targets : List Nat := if p.wiener then [p.center] else List.range p.data.size

/-- The planes of a geometry, unless none of them has noise. -/
def filterGeometry (geo : Geometry) (s : State D) : Except String (State D) :=
  if allOff tools p geo then .ok s
  else (targets p).foldlM (fun s t0 => do
    let places ← raster geo.width geo.height (p.options.block p.stage) (p.options.step p.stage)
    places.foldlM (query tools p geo (guide tools p geo) t0) s) s

def filterFrom (s : State D × (Nat → Bool)) (first : Nat) : Except String (State D × (Nat → Bool)) :=
  if s.2 first then .ok s
  else do
    let geo := geometry p s.2 first
    let s' ← filterGeometry tools p geo s.1
    return (s', fun c => s.2 c || decide (c ∈ geo.channels))

/-- `nlh_pass`; `work` is what its workspaces start with. -/
def nlhPass (work : Nat → NlhWorkspace F32 D) (groups : Nat) : Except String (State D) := do
  let accum (c : Nat × Nat) : AccumPlane D :=
    let plane := (p.data.frames c.1).planes c.2
    ⟨plane.width, plane.height, fun _ => tools.arith.ofNat 0, fun _ => tools.arith.ofNat 0⟩
  let s ← (List.range p.planes).foldlM (filterFrom tools p) (⟨accum, work, groups⟩, fun _ => false)
  return s.1

/-! ## The whole filter -/

def finiteFloat (x : D) : Except String F32 :=
  if !tools.arith.isFinite x || tools.arith.lt tools.arith.maxFloat (tools.arith.abs x) then
    .error "nss: unrepresentable image estimate"
  else .ok (tools.arith.toFloat x)

/-- Sequences whose planes are computed one after the other. -/
def sequence (size planes : Nat) (plane : Nat → Nat → Except String ImagePlane) (sigma : Nat → Nat → F32) :
    Except String ImageSequence := do
  let frames ← (List.range size).mapM fun t => (List.range planes).mapM fun c => plane t c
  return ⟨size, fun t => ⟨fun c => (frames.getD t []).getD c ImagePlane.empty, sigma t⟩⟩

def checkPlane (input : ImageSequence) (reference : Option ImageSequence) (t c : Nat) : Except String Unit :=
  let p := (input.frames t).planes c
  let first := (input.frames 0).planes c
  let sigma := (input.frames t).sigma c
  if p.width < 1 ∨ p.height < 1 ∨ p.width ≠ first.width ∨ p.height ≠ first.height ∨
      (p.pixels.length : Int) ≠ p.width * p.height ∨ ¬F32.zero.le sigma ∨ ¬sigma.isFiniteBits then
    .error "nss: invalid image plane/noise"
  else if ¬p.pixels.all F32.isFiniteBits then .error "nss: nonfinite input sample"
  else match reference with
    | none => .ok ()
    | some r =>
      let rp := (r.frames t).planes c
      if rp.width ≠ p.width ∨ rp.height ≠ p.height ∨ rp.pixels.length ≠ p.pixels.length then
        .error "nss: invalid matching reference shape"
      else if ¬rp.pixels.all F32.isFiniteBits then .error "nss: nonfinite matching reference"
      else .ok ()

def validate (input : ImageSequence) (reference : Option ImageSequence) (planes center : Nat) :
    Except String Unit :=
  if input.size = 0 ∨ input.size > 33 ∨ center ≥ input.size ∨ planes < 1 ∨ planes > 3 ∨
      (∃ r ∈ reference, r.size ≠ input.size) then .error "nss: invalid image sequence"
  else (List.range input.size).forM fun t => (List.range planes).forM fun c => checkPlane input reference t c

/-- The estimate before an iteration of the basic stage, mixed with the input. -/
def mix (mix : D) (basic input : ImageSequence) (planes : Nat) : Except String ImageSequence :=
  let a := tools.arith
  sequence input.size planes (fun t c => do
    let e := (basic.frames t).planes c
    let y := (input.frames t).planes c
    let pixels ← (List.range e.pixels.length).mapM fun i => finiteFloat tools
      (a.add (a.mul mix (a.ofFloat (e.pixel i))) (a.mul (a.sub (a.ofNat 1) mix) (a.ofFloat (y.pixel i))))
    return { e with pixels := pixels }) fun t => (basic.frames t).sigma

def finish (accum : Nat × Nat → AccumPlane D) (fallback : ImageSequence) (planes : Nat) : Except String ImageSequence :=
  let a := tools.arith
  sequence fallback.size planes (fun t c => do
    let p := accum (t, c)
    let pixels ← (List.range (p.width * p.height).toNat).mapM fun i =>
      if a.lt (a.ofNat 0) (p.denominator i) then finiteFloat tools (a.div (p.numerator i) (p.denominator i))
      else .ok (((fallback.frames t).planes c).pixel i)
    return ⟨p.width, p.height, pixels⟩) fun t => (fallback.frames t).sigma

/-- A plane of `contributions`. -/
def contribution (values : Nat → D) (width height : Int) : Except String ImagePlane := do
  let pixels ← (List.range (width * height).toNat).mapM fun i => finiteFloat tools (values i)
  return ⟨width, height, pixels⟩

structure Contributions where
  numerator : ImageSequence
  denominator : ImageSequence
  groups : Nat

def contributions (s : State D) (input : ImageSequence) (planes : Nat) : Except String Contributions := do
  let numerator ← sequence input.size planes (fun t c =>
    contribution tools (s.accum (t, c)).numerator (s.accum (t, c)).width (s.accum (t, c)).height)
    fun t => (input.frames t).sigma
  let denominator ← sequence input.size planes (fun t c =>
    contribution tools (s.accum (t, c)).denominator (s.accum (t, c)).width (s.accum (t, c)).height)
    fun _ _ => F32.zero
  return ⟨numerator, denominator, s.groups⟩

variable (input : ImageSequence) (reference : Option ImageSequence) (planes center : Nat)
  (resolve : NlhImageOptions D → Except String (NlhImageOptions D)) (requested : NlhImageOptions D)

/-- One iteration of the basic stage. -/
def basicIteration (o : NlhImageOptions D) (work : Nat → NlhWorkspace F32 D) (s : ImageSequence × Nat) :
    Except String (ImageSequence × Nat) := do
  let basic ← mix tools o.basic_mix s.1 input planes
  let pass ← nlhPass tools ⟨basic, basic, reference, planes, center, 0, o, false⟩ work s.2
  let basic ← finish tools pass.accum input planes
  return (basic, pass.groups)

/-- `nlh_image`; every pass starts with the workspaces `work`. -/
def nlhImage (work : Nat → NlhWorkspace F32 D) : Except String Contributions := do
  validate input reference planes center
  let o ← resolve requested
  let s ← (List.range o.basic_iterations).foldlM
    (fun s _ => basicIteration tools input reference planes center o work s) (input, 0)
  let final ← nlhPass tools ⟨input, s.1, reference, planes, center, 1, o, true⟩ work s.2
  contributions tools final input planes

/-- The check of `full_image.cpp` before it converts the contributions of an RGB frame. -/
def sharedDenominators (result : Contributions) (count : Nat) : Except String Unit :=
  (List.range count).forM fun t =>
    let planes := (result.denominator.frames t).planes
    if (planes 0).pixels ≠ (planes 1).pixels ∨ (planes 0).pixels ≠ (planes 2).pixels then
      .error "nss.NLH: inconsistent shared color aggregation"
    else .ok ()

end Code

section Proofs

variable {D : Type} {tools : Tools D} {p : Pass D}

/-! ## A group -/

/-- The same denominators. -/
def SameDen (p p' : AccumPlane D) : Prop :=
  p.width = p'.width ∧ p.height = p'.height ∧ p.denominator = p'.denominator

theorem addPixelMatrix_sameDen {q q' : AccumPlane D} (h : SameDen q q') {x y : Int} {block : Nat}
    {num num' den : Nat → D} :
    SameDen (addPixelMatrix tools q x y block num den) (addPixelMatrix tools q' x y block num' den) := by
  obtain ⟨hw, hh, hd⟩ := h
  refine ⟨hw, hh, ?_⟩
  simp only [addPixelMatrix, hw, hd]

theorem addChannel_off {found : Found} {accum : Nat × Nat → AccumPlane D} {channel c t : Nat}
    {w : NlhWorkspace F32 D} (h : c ≠ channel) :
    addChannel tools p found accum channel w (t, c) = accum (t, c) := by
  unfold addChannel
  generalize List.range found.n = l
  induction l generalizing accum with
  | nil => rfl
  | cons j l ih =>
    rw [List.foldl_cons, ih, Function.update_of_ne]
    intro heq
    exact h (congrArg Prod.snd heq)

/-- What a channel becomes depends on what it was and on its own sums only. -/
theorem addChannel_related {R : Nat → AccumPlane D → AccumPlane D → Prop} {found : Found}
    {accum accum' : Nat × Nat → AccumPlane D} {c c' : Nat} {w w' : NlhWorkspace F32 D}
    (hstep : ∀ t q q' j, R t q q' → R t
      (addPixelMatrix tools q (found.patch j).x (found.patch j).y p.block (fun i => w.numerator (j * p.m + i))
        fun i => w.denominator (j * p.m + i))
      (addPixelMatrix tools q' (found.patch j).x (found.patch j).y p.block (fun i => w'.numerator (j * p.m + i))
        fun i => w'.denominator (j * p.m + i)))
    (h : ∀ t, R t (accum (t, c)) (accum' (t, c'))) (t : Nat) :
    R t (addChannel tools p found accum c w (t, c)) (addChannel tools p found accum' c' w' (t, c')) := by
  unfold addChannel
  generalize List.range found.n = l
  induction l generalizing accum accum' with
  | nil => exact h t
  | cons j l ih =>
    rw [List.foldl_cons, List.foldl_cons]
    refine ih fun t' => ?_
    by_cases ht : t' = (found.patch j).t.toNat
    · subst ht
      rw [Function.update_self, Function.update_self]
      exact hstep _ _ _ j (h _)
    · rw [Function.update_of_ne, Function.update_of_ne]
      · exact h t'
      · intro heq
        exact ht (congrArg Prod.fst heq)
      · intro heq
        exact ht (congrArg Prod.fst heq)

theorem addChannels_off {found : Found} {work : Nat → NlhWorkspace F32 D} {l : List (Nat × Nat)} {c : Nat}
    (hc : c ∉ l.map Prod.fst) {accum : Nat × Nat → AccumPlane D} (t : Nat) :
    l.foldl (fun accum c => addChannel tools p found accum c.1 (work c.2)) accum (t, c) = accum (t, c) := by
  induction l generalizing accum with
  | nil => rfl
  | cons d l ih =>
    rw [List.map_cons, List.mem_cons, not_or] at hc
    rw [List.foldl_cons, ih hc.2, addChannel_off hc.1]

/-- After all channels, each is what its own additions have made of it. -/
theorem addChannels_at {found : Found} {work : Nat → NlhWorkspace F32 D} {l : List (Nat × Nat)}
    (hl : (l.map Prod.fst).Nodup) {accum : Nat × Nat → AccumPlane D} {c : Nat × Nat} (hc : c ∈ l) (t : Nat) :
    l.foldl (fun accum c => addChannel tools p found accum c.1 (work c.2)) accum (t, c.1) =
      addChannel tools p found accum c.1 (work c.2) (t, c.1) := by
  induction l generalizing accum with
  | nil => simp at hc
  | cons d l ih =>
    rw [List.map_cons, List.nodup_cons] at hl
    rw [List.foldl_cons]
    rcases List.mem_cons.mp hc with rfl | hc
    · exact addChannels_off hl.1 t
    · have hne : c.1 ≠ d.1 := fun heq => hl.1 (heq ▸ List.mem_map_of_mem hc)
      rw [ih hl.2 hc]
      exact addChannel_related (R := fun _ q q' => q = q') (fun _ _ _ _ h => by rw [h])
        (fun t => addChannel_off hne) t

/-- The denominators of a group, the same for all channels. -/
def groupCounts (tools : Tools D) (p : Pass D) (geo : Geometry) (found : Found) (table : Nat → Int) (t0 : Nat) :
    Nat → D :=
  tableCounts tools.arith.toGroupArith (channelGroup p geo found 0) (groupOptions tools p t0 0)
    fun x => (table x).toNat

theorem filterChannels_denominator {geo : Geometry} {found : Found} {table : Nat → Int} {t0 : Nat}
    {work work' : Nat → NlhWorkspace F32 D} (h : filterChannels tools p geo found table t0 work = .ok work')
    {c : Nat × Nat} (hc : c ∈ geo.channels.zipIdx) :
    (work' c.2).denominator = groupCounts tools p geo found table t0 := by
  have hnodup : (geo.channels.zipIdx.map Prod.snd).Nodup := by
    rw [List.zipIdx_map_snd]
    exact List.nodup_range'
  unfold filterChannels at h
  generalize geo.channels.zipIdx = l at h hc hnodup
  have hrun : ∀ (l : List (Nat × Nat)) (work : Nat → NlhWorkspace F32 D), (l.map Prod.snd).Nodup →
      l.foldlM (fun work c => do
        let w ← nlhFilterFull tools.arith.toGroupArith tools.transforms (channelGroup p geo found c.1)
          (groupOptions tools p t0 c.1) tools.pixel_match (some table) (work c.2)
        return Function.update work c.2 w) work = .ok work' →
      (∀ c ∈ l, (work' c.2).denominator = groupCounts tools p geo found table t0) ∧
        ∀ i, i ∉ l.map Prod.snd → work' i = work i := by
    intro l
    induction l with
    | nil =>
      intro work _ hwork
      cases hwork
      exact ⟨by simp, fun _ _ => rfl⟩
    | cons d l ih =>
      intro work hnodup hwork
      rw [List.map_cons, List.nodup_cons] at hnodup
      rw [List.foldlM_cons] at hwork
      obtain ⟨work₁, hfirst, hrest⟩ := Loops.bind_eq_ok.mp hwork
      obtain ⟨w, hfilter, hupdate⟩ := Loops.bind_eq_ok.mp hfirst
      cases hupdate
      obtain ⟨hlater, hothers⟩ := ih _ hnodup.2 hrest
      constructor
      · intro c hc
        rcases List.mem_cons.mp hc with rfl | hc
        · rw [hothers c.2 hnodup.1, Function.update_self]
          exact (fullFilter_denominator hfilter).trans rfl
        · exact hlater c hc
      · intro i hi
        rw [List.map_cons, List.mem_cons, not_or] at hi
        rw [hothers i hi.2, Function.update_of_ne hi.1]
  exact (hrun l work hnodup h).1 c hc

/-! ## A pass -/

/-- Two planes of the accumulator have the same denominators in every frame. -/
def Agree (size : Nat) (s : State D) (c c' : Nat) : Prop := ∀ t < size, SameDen (s.accum (t, c)) (s.accum (t, c'))

/-- A query keeps planes that are filtered together, or both not, alike. -/
theorem query_agree {geo : Geometry} {guides : Nat → ImagePlane} {t0 size c c' : Nat} {s s' : State D}
    {place : Int × Int} (h : query tools p geo guides t0 s place = .ok s') (hnodup : geo.channels.Nodup)
    (hboth : c ∈ geo.channels ↔ c' ∈ geo.channels) (hs : Agree size s c c') : Agree size s' c c' := by
  obtain ⟨found, -, h⟩ := Loops.bind_eq_ok.mp h
  obtain ⟨work, hwork, h⟩ := Loops.bind_eq_ok.mp h
  cases h
  intro t ht
  have hfst : (geo.channels.zipIdx.map Prod.fst) = geo.channels := List.zipIdx_map_fst ..
  by_cases hc : c ∈ geo.channels
  · obtain ⟨i, hi⟩ := List.getElem?_of_mem hc
    obtain ⟨i', hi'⟩ := List.getElem?_of_mem (hboth.mp hc)
    have hmem : (c, i) ∈ geo.channels.zipIdx := List.mem_zipIdx_iff_getElem?.mpr hi
    have hmem' : (c', i') ∈ geo.channels.zipIdx := List.mem_zipIdx_iff_getElem?.mpr hi'
    have hden := filterChannels_denominator hwork hmem
    have hden' := filterChannels_denominator hwork hmem'
    simp only [addChannels_at (hfst.symm ▸ hnodup) hmem, addChannels_at (hfst.symm ▸ hnodup) hmem']
    refine addChannel_related (R := fun t q q' => t < size → SameDen q q') ?_ (fun t ht => hs t ht) t ht
    intro t q q' j hq ht
    simp only at hden hden'
    rw [hden, hden']
    exact addPixelMatrix_sameDen (hq ht)
  · have hc' : c' ∉ geo.channels := fun h => hc (hboth.mpr h)
    simp only [addChannels_off (hfst.symm ▸ hc), addChannels_off (hfst.symm ▸ hc')]
    exact hs t ht

theorem filterGeometry_agree {geo : Geometry} {size c c' : Nat} {s s' : State D}
    (h : filterGeometry tools p geo s = .ok s') (hnodup : geo.channels.Nodup)
    (hboth : c ∈ geo.channels ↔ c' ∈ geo.channels) (hs : Agree size s c c') : Agree size s' c c' := by
  unfold filterGeometry at h
  split at h
  · cases h
    exact hs
  · refine Loops.foldlM_ok_induct (fun _ s => Agree size s c c') hs (fun _ t0 _ s s₁ _ hs hstep => ?_) h
    obtain ⟨places, -, hstep⟩ := Loops.bind_eq_ok.mp hstep
    exact Loops.foldlM_ok_induct (fun _ s => Agree size s c c') hs
      (fun _ place _ s s₁ _ hs hquery => query_agree hquery hnodup hboth hs) hstep

/-- Before plane `first` is taken: all earlier planes are used, and planes of one size are used
together and have the same denominators. -/
structure Before (p : Pass D) (first : Nat) (s : State D × (Nat → Bool)) : Prop where
  used : ∀ c < first, s.2 c = true
  together : ∀ c < p.planes, ∀ c' < p.planes, size p c = size p c' → s.2 c = s.2 c'
  agree : ∀ c < p.planes, ∀ c' < p.planes, size p c = size p c' → Agree p.data.size s.1 c c'

theorem mem_geometry {used : Nat → Bool} {first c : Nat} : c ∈ (geometry p used first).channels ↔
    c < p.planes ∧ first ≤ c ∧ used c = false ∧ size p c = size p first := by
  simp [geometry]

theorem filterFrom_before {first : Nat} {s s' : State D × (Nat → Bool)} (hfirst : first < p.planes)
    (hs : Before p first s) (h : filterFrom tools p s first = .ok s') : Before p (first + 1) s' := by
  unfold filterFrom at h
  split at h
  · rename_i hused
    cases h
    refine ⟨fun c hc => ?_, hs.together, hs.agree⟩
    by_cases heq : c = first
    · exact heq ▸ hused
    · exact hs.used c (by omega)
  · rename_i hunused
    obtain ⟨s₁, hfilter, h⟩ := Loops.bind_eq_ok.mp h
    cases h
    -- an unused plane is not before `first`
    have hmem : ∀ c < p.planes, (c ∈ (geometry p s.2 first).channels ↔
        s.2 c = false ∧ size p c = size p first) := by
      intro c hc
      rw [mem_geometry]
      refine ⟨fun h => h.2.2, fun h => ⟨hc, ?_, h⟩⟩
      by_contra hlt
      have := hs.used c (by omega)
      rw [h.1] at this
      cases this
    have hboth : ∀ c < p.planes, ∀ c' < p.planes, size p c = size p c' →
        (c ∈ (geometry p s.2 first).channels ↔ c' ∈ (geometry p s.2 first).channels) := by
      intro c hc c' hc' hsize
      rw [hmem c hc, hmem c' hc', hs.together c hc c' hc' hsize, hsize]
    refine ⟨fun c hc => ?_, fun c hc c' hc' hsize => ?_, fun c hc c' hc' hsize => ?_⟩
    · rw [Bool.or_eq_true, decide_eq_true_eq]
      by_cases heq : c = first
      · refine .inr (heq ▸ (hmem first hfirst).mpr ⟨by simpa using hunused, rfl⟩)
      · exact .inl (hs.used c (by omega))
    · dsimp only
      rw [hs.together c hc c' hc' hsize, decide_eq_decide.mpr (hboth c hc c' hc' hsize)]
    · exact filterGeometry_agree hfilter (List.nodup_range.filter _) (hboth c hc c' hc' hsize)
        (hs.agree c hc c' hc' hsize)

/-- The planes of a frame have the sizes those of the centre have. -/
def Uniform (input : ImageSequence) (planes : Nat) : Prop :=
  ∀ t < input.size, ∀ c < planes, ((input.frames t).planes c).width = ((input.frames 0).planes c).width ∧
    ((input.frames t).planes c).height = ((input.frames 0).planes c).height

/-- The channels of one geometry keep the same denominators in every frame. -/
theorem nlhPass_denominators {work : Nat → NlhWorkspace F32 D} {groups : Nat} {s : State D}
    (h : nlhPass tools p work groups = .ok s) (hcenter : p.center < p.data.size)
    (huniform : Uniform p.data p.planes) {c c' : Nat} (hc : c < p.planes) (hc' : c' < p.planes)
    (hsize : size p c = size p c') : Agree p.data.size s c c' := by
  obtain ⟨last, hrun, h⟩ := Loops.bind_eq_ok.mp h
  cases h
  have hbefore : Before p (List.range p.planes).length last := by
    refine Loops.foldlM_ok_induct (fun before s => Before p before.length s) ?_ ?_ hrun
    · refine ⟨by simp, fun _ _ _ _ _ => rfl, fun c hc c' hc' hsize t ht => ?_⟩
      have hw := congrArg Prod.fst hsize
      have hh := congrArg Prod.snd hsize
      simp only [size] at hw hh
      have hcw := huniform p.center hcenter c hc
      have hcw' := huniform p.center hcenter c' hc'
      have htw := huniform t ht c hc
      have htw' := huniform t ht c' hc'
      refine ⟨?_, ?_, rfl⟩
      · simp only [htw.1, htw'.1, ← hcw.1, ← hcw'.1, hw]
      · simp only [htw.2, htw'.2, ← hcw.2, ← hcw'.2, hh]
    · intro before first rest s s' hsplit hs hstep
      have hplace : (List.range p.planes)[before.length]? = some first := by
        rw [hsplit, List.getElem?_append_right (Nat.le_refl _), Nat.sub_self]
        rfl
      obtain ⟨hlt, hget⟩ := List.getElem?_eq_some_iff.mp hplace
      rw [List.length_range] at hlt
      rw [List.getElem_range] at hget
      subst hget
      rw [List.length_append]
      exact filterFrom_before hlt hs hstep
  exact hbefore.agree c hc c' hc' hsize

/-! ## The colour check -/

theorem mapM_ok_at {ε α β : Type} {l : List α} {f : α → Except ε β} {r : List β} (h : l.mapM f = .ok r) {i : Nat}
    {x : α} (hx : l[i]? = some x) : ∃ y, r[i]? = some y ∧ f x = .ok y := by
  induction l generalizing r i with
  | nil => simp at hx
  | cons z l ih =>
    rw [List.mapM_cons] at h
    obtain ⟨y, hy, h⟩ := Loops.bind_eq_ok.mp h
    obtain ⟨ys, hys, h⟩ := Loops.bind_eq_ok.mp h
    cases h
    cases i with
    | zero =>
      obtain rfl : z = x := by simpa using hx
      exact ⟨y, rfl, hy⟩
    | succ i => exact ih hys (by simpa using hx)

theorem sequence_at {size planes t c : Nat} {plane : Nat → Nat → Except String ImagePlane} {sigma : Nat → Nat → F32}
    {r : ImageSequence} (h : sequence size planes plane sigma = .ok r) (ht : t < size) (hc : c < planes) :
    plane t c = .ok ((r.frames t).planes c) := by
  obtain ⟨frames, hframes, h⟩ := Loops.bind_eq_ok.mp h
  cases h
  obtain ⟨row, hrow, hplanes⟩ := mapM_ok_at hframes (List.getElem?_range ht)
  obtain ⟨plane, hplane, heq⟩ := mapM_ok_at hplanes (List.getElem?_range hc)
  simp only [List.getD_eq_getElem?_getD, hrow, Option.getD_some, hplane]
  exact heq

/-- Planes with the same denominators leave the same samples. -/
theorem contributions_same {s : State D} {input : ImageSequence} {planes c c' t : Nat} {r : Contributions}
    (h : contributions tools s input planes = .ok r) (hc : c < planes) (hc' : c' < planes) (ht : t < input.size)
    (hs : Agree input.size s c c') :
    ((r.denominator.frames t).planes c).pixels = ((r.denominator.frames t).planes c').pixels := by
  obtain ⟨numerator, -, h⟩ := Loops.bind_eq_ok.mp h
  obtain ⟨denominator, hden, h⟩ := Loops.bind_eq_ok.mp h
  cases h
  obtain ⟨hw, hh, hd⟩ := hs t ht
  have hat := sequence_at hden ht hc
  have hat' := sequence_at hden ht hc'
  rw [hw, hh, hd, hat'] at hat
  exact congrArg ImagePlane.pixels (Except.ok.inj hat).symm

theorem validate_ok {input : ImageSequence} {reference : Option ImageSequence} {planes center : Nat}
    (h : validate input reference planes center = .ok ()) : center < input.size ∧ Uniform input planes := by
  unfold validate at h
  split at h
  · cases h
  · rename_i hvalid
    push Not at hvalid
    refine ⟨hvalid.2.2.1, fun t ht c hc => ?_⟩
    have hplane := Loops.forM_eq_ok.mp (Loops.forM_eq_ok.mp h t (List.mem_range.mpr ht)) c (List.mem_range.mpr hc)
    unfold checkPlane at hplane
    simp only at hplane
    split at hplane
    · cases hplane
    · rename_i hok
      push Not at hok
      exact ⟨hok.2.2.1, hok.2.2.2.1⟩

/-- The check before the colour conversion passes whatever `nlh_image` returns for three planes of
one size. -/
theorem nlh_sharedDenominators {input : ImageSequence} {reference : Option ImageSequence} {planes center : Nat}
    {resolve : NlhImageOptions D → Except String (NlhImageOptions D)} {requested : NlhImageOptions D}
    {work : Nat → NlhWorkspace F32 D} {r : Contributions}
    (h : nlhImage tools input reference planes center resolve requested work = .ok r) (hplanes : 3 ≤ planes)
    (hsize : ∀ c < 3, (((input.frames center).planes c).width, ((input.frames center).planes c).height) =
      (((input.frames center).planes 0).width, ((input.frames center).planes 0).height)) :
    sharedDenominators r input.size = .ok () := by
  obtain ⟨_, hvalid, h⟩ := Loops.bind_eq_ok.mp h
  obtain ⟨o, -, h⟩ := Loops.bind_eq_ok.mp h
  obtain ⟨s, -, h⟩ := Loops.bind_eq_ok.mp h
  obtain ⟨final, hfinal, h⟩ := Loops.bind_eq_ok.mp h
  obtain ⟨hcenter, huniform⟩ := validate_ok hvalid
  have hagree : ∀ c < 3, Agree input.size final 0 c := fun c hc =>
    nlhPass_denominators hfinal hcenter huniform (show 0 < planes by omega) (show c < planes by omega) (hsize c hc).symm
  refine Loops.forM_eq_ok.mpr fun t ht => ?_
  have ht := List.mem_range.mp ht
  simp only [← contributions_same h (show 0 < planes by omega) (show 1 < planes by omega) ht (hagree 1 (by omega)),
    ← contributions_same h (show 0 < planes by omega) (show 2 < planes by omega) ht (hagree 2 (by omega)), ne_eq,
    not_true_eq_false, or_self, if_false]

/-- The sums of a group are read off its index table in all forms of the filter, the vector shrinkage
is the scalar one, and the channels of one geometry have the same denominators. -/
theorem nlh_shared_indices {F D : Type} :
    (∀ (a : GroupArith F D) (tr : Transforms F D) (pixelMatch : (Nat → F) → Nat → Nat → Nat → Nat → Nat → Int)
      (g : PixelGroup F) (o : NlhGroupOptions D) (table : Nat → Int) (w : NlhWorkspace F D),
      invalidParameters a g o = false → nonfiniteInput a g o = false → Admitted g o table →
      ∃ w', nlhFilterFull a tr g o pixelMatch (some table) w = .ok w' ∧ ∀ i < g.m, ∀ j < g.n,
        w'.numerator (j * g.m + i) = namedSum a tr g o (fun x => (table x).toNat) i j ∧
        w'.denominator (j * g.m + i) = a.ofNat (naming g o (fun x => (table x).toNat) i).length) ∧
    (∀ (s : ShrinkArith F D) (p : Shrink F D) (lanes : Int) (e : Nat), 0 < lanes → p.q = 2 ^ e →
      ∀ (matrix : Int → F) (index : Int),
        nlhShrinkFull s p lanes matrix index = (if 0 ≤ index ∧ index < p.q * p.n then
          scalarValue s p index (matrix index) else matrix index) ∧
        (p.wiener = false → nlhShrinkFull s p lanes matrix index =
          if (0 ≤ index ∧ index < p.q * p.n) ∧ (s.lt (s.abs (s.promote (matrix index))) p.threshold ∨
            (0 < index / p.q ∧ max 0 ((p.q : Int) - 2) ≤ index % p.q)) then s.zero else matrix index)) ∧
    (∀ (tools : Tools D) (p : Pass D) (work : Nat → NlhWorkspace F32 D) (groups : Nat) (s : State D),
      nlhPass tools p work groups = .ok s → p.center < p.data.size → Uniform p.data p.planes →
      ∀ c < p.planes, ∀ c' < p.planes, size p c = size p c' → Agree p.data.size s c c') ∧
    (∀ (tools : Tools D) (input : ImageSequence) (reference : Option ImageSequence) (planes center : Nat)
      (resolve : NlhImageOptions D → Except String (NlhImageOptions D)) (requested : NlhImageOptions D)
      (work : Nat → NlhWorkspace F32 D) (r : Contributions),
      nlhImage tools input reference planes center resolve requested work = .ok r → 3 ≤ planes →
      (∀ c < 3, (((input.frames center).planes c).width, ((input.frames center).planes c).height) =
        (((input.frames center).planes 0).width, ((input.frames center).planes 0).height)) →
      sharedDenominators r input.size = .ok ()) := by
  refine ⟨?_, ?_, ?_, ?_⟩
  · intro a tr pixelMatch g o table w hparams hfinite htable
    exact fullFilter_sums hparams hfinite htable w
  · intro s p lanes e hlanes hq matrix index
    exact ⟨shrinkFull_apply hlanes hq matrix index, fun hhard => shrinkFull_hard hlanes hq hhard matrix index⟩
  · intro tools p work groups s h hcenter huniform c hc c' hc' hsize
    exact nlhPass_denominators h hcenter huniform hc hc' hsize
  · intro tools input reference planes center resolve requested work r h hplanes hsize
    exact nlh_sharedDenominators h hplanes hsize

/-! ### Three planes of one pixel -/

/-- Integers for doubles; a float is its place among the floats. -/
def intArith : ImageArith Int where
  zero := F32.zero
  nonfinite _ := false
  ofFloat v := v.value
  ofNat n := n
  add := (· + ·)
  mul := (· * ·)
  le x y := x ≤ y
  eq x y := x = y
  isFinite _ := true
  hardCoefficient := 2
  count_exact c _ := by push_cast; rfl
  sub := (· - ·)
  div := (· / ·)
  abs x := x.natAbs
  lt x y := x < y
  maxFloat := 1000
  toFloat x := BitVec.ofInt 32 x

def keptTransforms : Transforms F32 Int where
  haar2d _ _ _ l x := l.getD x F32.zero
  shrink l _ _ _ _ _ _ _ x := l.getD x F32.zero

def onePixelTools : Tools Int where
  arith := intArith
  transforms := keptTransforms
  area_guide p _ _ := p
  image_match _ _ _ _ _ _ x y := .ok [⟨x, y, 0, F32.zero, 0⟩]
  pixel_match _ _ _ _ _ _ := 0

/-- Three planes, the first with noise. -/
def onePixel : ImageSequence := ⟨1, fun _ => ⟨fun _ => ⟨1, 1, [F32.zero]⟩, fun c => if c = 0 then 1#32 else F32.zero⟩⟩

def oneOptions : NlhImageOptions Int where
  block _ := 1
  step _ := 1
  group _ := 1
  q _ := 1
  window _ := 1
  basic_iterations := 0
  basic_mix := 1
  radius := 0
  ps_num := 0
  ps_range := 0
  hard_strength := 1
  wiener_iterations := 1
  wiener_sigma_scale := 1

def exactShrink : ShrinkArith F32 Int where
  zero := F32.zero
  promote v := v.toNat
  demote x := BitVec.ofInt 32 x
  dzero := 0
  done := 1
  mul := (· * ·)
  add := (· + ·)
  div := (· / ·)
  abs x := x.natAbs
  lt x y := x < y
  eq x y := x = y
  demote_promote x := by rw [BitVec.ofInt_natCast, BitVec.ofNat_toNat, BitVec.setWidth_eq]
  demote_dzero := rfl

/-- Workspaces that hold nothing yet. -/
def emptyWork : NlhWorkspace F32 Int := ⟨fun _ => 0, fun _ => F32.zero, fun _ => F32.zero, fun _ => 0, fun _ => 0⟩

theorem nlh_shared_indices_onePixel :
    (∃ w', nlhFilterFull intArith.toGroupArith keptTransforms ⟨fun _ => F32.zero, none, 1, 1, 1⟩
      ⟨1, 1, false, 1, 1, 1⟩ (fun _ _ _ _ _ _ => 0) (some fun _ => 0) emptyWork = .ok w') ∧
    nlhShrinkFull exactShrink ⟨fun _ => F32.zero, 2 ^ 1, 2, 5, 0, 1, false⟩ 8 (fun _ => 7#32) 2 = F32.zero ∧
    (∃ s, nlhPass onePixelTools ⟨onePixel, onePixel, none, 3, 0, 1, oneOptions, true⟩ (fun _ => emptyWork) 0 = .ok s ∧
      Agree 1 s 0 1) ∧
    ∃ r, nlhImage onePixelTools onePixel none 3 0 .ok oneOptions (fun _ => emptyWork) = .ok r ∧
      sharedDenominators r 1 = .ok () := by
  obtain ⟨hfilter, hshrink, hpass, himage⟩ := nlh_shared_indices (F := F32) (D := Int)
  refine ⟨?_, ?_, ⟨_, rfl, ?_⟩, ⟨_, rfl, ?_⟩⟩
  · obtain ⟨w', hw', -⟩ := hfilter intArith.toGroupArith keptTransforms (fun _ _ _ _ _ _ => 0)
      ⟨fun _ => F32.zero, none, 1, 1, 1⟩ ⟨1, 1, false, 1, 1, 1⟩ (fun _ => 0) emptyWork (by decide) (by decide)
      (fun _ _ => ⟨Int.le_refl 0, Int.zero_lt_one⟩)
    exact ⟨w', hw'⟩
  · exact ((hshrink exactShrink ⟨fun _ => F32.zero, 2 ^ 1, 2, 5, 0, 1, false⟩ 8 1 (by decide) rfl
      (fun _ => 7#32) 2).2 rfl).trans (if_pos (by decide))
  · exact hpass onePixelTools ⟨onePixel, onePixel, none, 3, 0, 1, oneOptions, true⟩ (fun _ => emptyWork) 0 _ rfl
      (by decide) (fun _ _ _ _ => ⟨rfl, rfl⟩) 0 (by decide) 1 (by decide) rfl
  · exact himage onePixelTools onePixel none 3 0 .ok oneOptions (fun _ => emptyWork) _ rfl (by decide)
      (fun _ _ => rfl)

end Proofs

end NssFactory.Cpu.NlhImage

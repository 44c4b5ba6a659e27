import Mathlib.Data.Prod.Lex
import NssFactory.Lib.Groups
import NssFactory.Lib.Lines
import NssFactory.Lib.Strides
import NssFactory.Lib.Tiles

/-!
# NCSR HQ by tiles of one class

`run_targets` takes the targets of a match plan in tiles of 128, and in a tile class by class: it
projects every distinct position of a class once on the basis of the class, looks the neighbours
of each target up among them, and puts the results back in the order of the jobs. The workspace
is the same for all tiles, iterations and dictionaries.

`perTarget` is the algorithm for one target at a time, and `runTargets_eq` says that the tiles,
the classes and the workspace do not show. Float and double operations are arbitrary.
-/

namespace NssFactory.Cpu.NcsrHq

open Groups

/-- The arithmetic. `dot` is the entry of `gemm_f32_f64` from a row of `A` and a column of `B`. -/
structure Ops (F D : Type) where
  lit : Rat → F
  ofNat : Nat → F
  inf : F
  add : F → F → F
  sub : F → F → F
  mul : F → F → F
  div : F → F → F
  max : F → F → F
  min : F → F → F
  neg : F → F
  abs : F → F
  exp : F → F
  copysign : F → F → F
  mulAdd : F → F → F → F
  lt : F → F → Bool
  le : F → F → Bool
  toD : F → D
  toF : D → F
  dlit : Rat → D
  dofNat : Nat → D
  dinf : D
  dadd : D → D → D
  dsub : D → D → D
  dmul : D → D → D
  ddiv : D → D → D
  dmax : D → D → D
  dsqrt : D → D
  dlt : D → D → Bool
  dot : List F → List F → F

structure Neighbor (F : Type) where
  position : Nat
  distance : F

structure Neighborhood where
  x : Nat
  y : Nat
  count : Nat
  target : Nat
  cls : Nat
  offset : Nat

structure MatchPlan (F : Type) where
  jobs : List Neighborhood
  neighbors : List (Neighbor F)

structure Dictionaries (F D : Type) where
  /-- `none` where the class has no basis. -/
  bases : Nat → Option (Nat → F)
  transposes : Nat → Nat → F
  centers : Nat → F
  clusters : Nat
  flat_limit : D

structure SearchConfig where
  block : Nat
  bm_range : Nat
  step : Nat
  group : Nat

/-- What a call of `run_targets` reads. -/
structure Pass (F D : Type) where
  input_sigma : F
  match_sigma : F
  image : Nat → F
  width : Nat
  height : Nat
  cfg : SearchConfig
  sigma : F
  plan : MatchPlan F
  dict : Dictionaries F D
  fallback : Nat → F
  fallback_transpose : Nat → F

section Code

variable {F D : Type} (o : Ops F D)

/-! ## Patches -/

/-- Sample `k` of the patch at `(x, y)`; a patch that leaves the image is clamped to it. -/
def packPatch (image : Nat → F) (width height block x y k : Nat) : F :=
  if x + block ≤ width ∧ y + block ≤ height then
    image ((y + k / block) * width + x + k % block)
  else image (min (y + k / block) (height - 1) * width + min (x + k % block) (width - 1))

/-- How many samples of a row of `len` are added by fused vectors; `wide` for eight-lane loops. -/
def fusedEnd (lanes : Nat) (wide : Bool) (len : Nat) : Nat :=
  if wide ∧ len = 8 then 8
  else
    let px := len / lanes * lanes
    if wide then px + (len - px) / 8 * 8 else px

/-- `aggregate_add` with weight one, of rows that stay inside the image. -/
def aggregateAdd (lanes : Nat) (wide : Bool) (num den : Nat → F) (width height block x y : Nat)
    (patch : List F) : (Nat → F) × (Nat → F) :=
  let x1 := min (x + block) width
  let y1 := min (y + block) height
  let w := o.lit 1
  let inside (e : Nat) : Bool := decide (y ≤ e / width ∧ e / width < y1 ∧ x ≤ e % width ∧ e % width < x1)
  let sample (e : Nat) : F := patch.getD ((e / width - y) * block + (e % width - x)) (o.lit 0)
  (fun e =>
    if inside e then
      if e % width - x < fusedEnd lanes wide (x1 - x) then o.mulAdd w (sample e) (num e)
      else o.add (num e) (o.mul w (sample e))
    else num e,
  fun e => if inside e then o.add (den e) w else den e)

/-! ## Shrinkage -/

def coefficient (sigma : F) : F :=
  if o.le (o.mul sigma (o.lit 255)) (o.lit 10) then o.lit (56 / 100)
  else if o.le (o.mul sigma (o.lit 255)) (o.lit 15) then o.lit (59 / 100) else o.lit (64 / 100)

/-- The weights of `n` neighbours at `distances`; the nearest one counts as the second nearest. -/
def weightsFor (input_sigma match_sigma : F) (distances : List F) (n m : Nat) : Nat → F :=
  let distance (j : Nat) : F := distances.getD j (o.lit 0)
  let sigma8 := o.mul match_sigma (o.lit 255)
  let s := o.mul input_sigma (o.lit 255)
  let hp := if o.le s (o.lit 15) then o.lit 75 else if o.le s (o.lit 30) then o.lit 80
    else if o.le s (o.lit 50) then o.lit 90 else o.lit 95
  let h := o.div (o.mul (o.ofNat m) (o.max (o.mul (o.lit 12) sigma8) hp)) (o.mul (o.lit 255) (o.lit 255))
  let minimum := (List.range' 1 (n - 1)).foldl
    (fun best j => if o.lt (distance j) (distance best) then j else best) 0
  let second := (List.range n).foldl (fun s j => if j ≠ minimum then o.min s (distance j) else s) o.inf
  let weight (j : Nat) : F :=
    o.exp (o.div (o.neg (if j = minimum ∧ n > 1 then second else distance j)) h)
  let sum := (List.range n).foldl (fun sum j => o.dadd sum (o.toD (weight j))) (o.dlit 0)
  if o.dlt (o.dlit 0) sum then fun j => o.toF (o.ddiv (o.toD (weight j)) sum)
  else fun _ => o.div (o.lit 1) (o.ofNat n)

/-- The new code of the target and the values of tau, from the `r` codes of `n` neighbours. -/
def shrinkTarget (input_sigma match_sigma : F) (codes : List (List F)) (r n target : Nat) (sigma : F)
    (distances : List F) : List F × List D :=
  let code (j d : Nat) : F := (codes.getD j []).getD d (o.lit 0)
  let weights := weightsFor o input_sigma match_sigma distances n r
  let sigma2 := o.dmul (o.toD sigma) (o.toD sigma)
  let mean (d : Nat) : D :=
    (List.range n).foldl (fun mean j => o.dadd mean (o.toD (o.mul (weights j) (code j d)))) (o.dlit 0)
  let beta (d : Nat) : F := o.toF (mean d)
  let variance (d : Nat) : D := o.dmax (o.dlit 0) (o.dsub ((List.range n).foldl (fun variance j =>
    let error := o.dsub (o.toD (code j d)) (mean d)
    o.dadd variance (o.dmul (o.dmul error error) (o.ddiv (o.dlit 1) (o.dofNat n)))) (o.dlit 0)) sigma2)
  let c := o.dmul (o.toD (coefficient o input_sigma)) (o.dsqrt (o.dlit 2))
  let tau (d : Nat) : D :=
    o.ddiv (o.dmul c sigma2) (o.dadd (o.dsqrt (variance d)) (o.dlit (1 / 1000000000000)))
  let shrunk (d : Nat) : F :=
    let residual := o.sub (code target d) (beta d)
    o.add (beta d) (o.copysign (o.max (o.lit 0) (o.sub (o.abs residual) (o.toF (tau d)))) residual)
  ((List.range r).map shrunk, (List.range r).map tau)

/-! ## Match plans -/

def MatchPlan.job (plan : MatchPlan F) (i : Nat) : Neighborhood := plan.jobs.getD i ⟨0, 0, 0, 0, 0, 0⟩

def MatchPlan.neighbor (plan : MatchPlan F) (i : Nat) : Neighbor F :=
  plan.neighbors.getD i ⟨0, o.lit 0⟩

structure Match (F : Type) where
  x : Nat
  y : Nat
  dist : F

/-- The answer of `spatial_match_joint` to a batch of targets: their counts and their matches. -/
abbrev Matcher (F : Type) := List Neighborhood → Option ((Nat → Int) × (Nat → Nat → Match F))

/-- A job with the matches of its target, or `none` where `match_all` throws. -/
def addMatches (cfg : SearchConfig) (width : Nat) (plan : MatchPlan F) (job : Neighborhood)
    (count : Int) (found : Nat → Match F) : Option (MatchPlan F) :=
  if count < 1 ∨ count > cfg.group then none
  else
    let n := count.toNat
    let target := ((List.range n).filter fun j => (found j).x = job.x ∧ (found j).y = job.y).getLast?
    target.map fun target =>
      ⟨plan.jobs ++ [{ job with count := n, target := target, offset := plan.neighbors.length }],
        plan.neighbors ++ (List.range n).map fun j => ⟨(found j).y * width + (found j).x, (found j).dist⟩⟩

/-- The places of `for (x = 0; x < last + step; x += step)`, cut at `last`. -/
def places (last step : Nat) : List Nat :=
  (List.range (Strides.count last step)).map (Strides.place last step)

def anchors (width height : Nat) (cfg : SearchConfig) : List Neighborhood :=
  (places (height - cfg.block) cfg.step).flatMap fun y =>
    (places (width - cfg.block) cfg.step).map fun x => ⟨x, y, 0, 0, 0, 0⟩

/-- `match_all`: the anchors in batches of 32, or `none` where it throws. -/
def matchAll (matcher : Matcher F) (width height : Nat) (cfg : SearchConfig) : Option (MatchPlan F) :=
  let jobs := anchors width height cfg
  (List.range ((jobs.length + 31) / 32)).foldlM (fun plan b => do
    let batch := (jobs.drop (b * 32)).take 32
    let (counts, found) ← matcher batch
    batch.zipIdx.foldlM (fun plan job => addMatches cfg width plan job.1 (counts job.2) (found job.2)) plan)
    ⟨[], []⟩

/-- The samples less their mean, and their energy. -/
def feature (patch : List F) (d : Nat) : List F × F :=
  let mean := o.ddiv (patch.foldl (fun mean v => o.dadd mean (o.toD v)) (o.dlit 0)) (o.dofNat d)
  let out := patch.map fun v => o.sub v (o.toF mean)
  (out, o.toF (o.ddiv (out.foldl (fun energy v => o.dadd energy (o.toD (o.mul v v))) (o.dlit 0)) (o.dofNat d)))

/-- The nearest of `k` centers, the first of several. -/
def classify (f : List F) (d : Nat) (centers : Nat → F) (k : Nat) : Nat :=
  ((List.range k).foldl (fun (best : D × Nat) c =>
    let distance := (List.range d).foldl (fun distance j =>
      let e := o.toD (o.sub (f.getD j (o.lit 0)) (centers (c * d + j)))
      o.dadd distance (o.dmul e e)) (o.dlit 0)
    if o.dlt distance best.1 then (distance, c) else best) (o.dinf, 0)).2

def assign (plan : MatchPlan F) (dict : Dictionaries F D) (image : Nat → F) (width height block : Nat) :
    MatchPlan F :=
  let d := block * block
  { plan with jobs := plan.jobs.map fun job =>
      let patch := (List.range d).map (packPatch image width height block job.x job.y)
      let (f, variance) := feature o patch d
      { job with cls :=
          if o.dlt (o.toD variance) dict.flat_limit ∨ dict.clusters = 0 then 0
          else 1 + classify o f d dict.centers dict.clusters } }

/-! ## The workspace -/

/-- A vector; what it holds beyond its size is never read. -/
structure Vec (α : Type) where
  size : Nat
  elem : Nat → α

variable {α : Type}

def Vec.resize (v : Vec α) (n : Nat) (zero : α) : Vec α := ⟨n, fun i => if i < v.size then v.elem i else zero⟩

def Vec.put (v : Vec α) (stores : List (Nat × α)) : Vec α := { v with elem := Lines.storeAll stores v.elem }

structure TileWorkspace (F D : Type) where
  order : List Nat
  positions : List Nat
  taus : Vec D
  packed : Vec F
  projected : Vec F
  target_codes : Vec F
  reconstructed : Vec F
  output : Vec F
  scratch : Vec F
  requested : Nat
  unique : Nat
  estimate_generation : Int
  dictionary_generation : Int
  cls : Int

def TileWorkspace.beginGeneration (ws : TileWorkspace F D) (estimate dictionary : Int) : TileWorkspace F D :=
  { ws with
    estimate_generation := estimate, dictionary_generation := dictionary, cls := -1
    positions := [], projected := { ws.projected with size := 0 }, requested := 0, unique := 0 }

/-- `gemm_f32_f64`, `none` where it refuses; all factors are there. -/
def gemm (a : Nat → F) (lda : Nat) (b : Nat → F) (ldb : Nat) (c : Vec F) (ldc m n k : Nat) : Option (Vec F) :=
  if lda < k ∨ ldb < n ∨ ldc < n then none
  else some (c.put ((List.range m).flatMap fun row => (List.range n).map fun col =>
    (row * ldc + col, o.dot ((List.range k).map fun i => a (row * lda + i))
      ((List.range k).map fun i => b (i * ldb + col)))))

/-! ## A run -/

variable (p : Pass F D)

def Pass.d : Nat := p.cfg.block * p.cfg.block

/-- The basis of a class and its transpose, the fallback where there is none. -/
def Pass.basis (cls : Nat) : Nat → F := (p.dict.bases cls).getD p.fallback

def Pass.transpose (cls : Nat) : Nat → F :=
  if (p.dict.bases cls).isNone then p.fallback_transpose else p.dict.transposes cls

def Pass.patch (position : Nat) : Nat → F :=
  packPatch p.image p.width p.height p.cfg.block (position % p.width) (position / p.width)

/-- Patch `j` goes through the scratch buffer into column `j`. -/
def packColumn (columns : Nat) (ws : TileWorkspace F D) (j : Nat) : TileWorkspace F D :=
  let patch := p.d * p.cfg.group
  let scratch := ws.scratch.put ((List.range p.d).map fun row =>
    (patch + row, p.patch (ws.positions.getD j 0) row))
  { ws with
    scratch := scratch
    packed := ws.packed.put ((List.range p.d).map fun row => (row * columns + j, scratch.elem (patch + row))) }

/-- Neighbour `j` of a job: its code and its distance. -/
def loadNeighbor (job : Neighborhood) (columns : Nat) (ws : TileWorkspace F D) (j : Nat) : TileWorkspace F D :=
  let neighbor := p.plan.neighbor o (job.offset + j)
  let slot := lowerBound ws.positions neighbor.position
  let codes := (List.range p.d).map fun row => (j * p.d + row, ws.projected.elem (row * columns + slot))
  { ws with scratch := ws.scratch.put (codes ++ [(p.d * p.cfg.group + p.d + j, neighbor.distance)]) }

/-- The target of job `ordinal`, the `i`-th of the `targets` of a run of its class. -/
def filterTarget (begin' columns targets : Nat) (ws : TileWorkspace F D) (i ordinal : Nat) : TileWorkspace F D :=
  let job := p.plan.job ordinal
  let ws := (List.range job.count).foldl (loadNeighbor o p job columns) ws
  let (shrunk, taus) := shrinkTarget o p.input_sigma p.match_sigma
    ((List.range job.count).map fun j => (List.range p.d).map fun d => ws.scratch.elem (j * p.d + d))
    p.d job.count job.target p.sigma
    ((List.range job.count).map fun j => ws.scratch.elem (p.d * p.cfg.group + p.d + j))
  let scratch := ws.scratch.put (shrunk.zipIdx.map fun v => (job.target * p.d + v.2, v.1))
  { ws with
    scratch := scratch
    taus := ws.taus.put (taus.zipIdx.map fun v => ((ordinal - begin') * p.d + v.2, v.1))
    target_codes := ws.target_codes.put ((List.range p.d).map fun row =>
      (row * targets + i, scratch.elem (job.target * p.d + row))) }

/-- The positions the jobs of a run ask for, repetitions included. -/
def requested (run : List Nat) : List Nat :=
  run.flatMap fun i =>
    (List.range (p.plan.job i).count).map fun j => (p.plan.neighbor o ((p.plan.job i).offset + j)).position

/-- The distinct positions of a run, packed and projected on the basis of its class. -/
def projectClass (ws : TileWorkspace F D) (run : List Nat) : Option (TileWorkspace F D) := do
  let cls := (p.plan.job (run.headD 0)).cls
  let targets := run.length
  let positions := distinct (requested o p run)
  let columns := positions.length
  let ws := { ws with
    cls := cls, positions := positions
    requested := ws.requested + (requested o p run).length, unique := ws.unique + columns
    packed := ws.packed.resize (p.d * columns) (o.lit 0)
    projected := ws.projected.resize (p.d * columns) (o.lit 0) }
  let ws := (List.range columns).foldl (packColumn p columns) ws
  let projected ← gemm o (p.basis cls) p.d ws.packed.elem columns ws.projected columns p.d columns p.d
  return { ws with
    projected := projected
    target_codes := ws.target_codes.resize (p.d * targets) (o.lit 0)
    reconstructed := ws.reconstructed.resize (p.d * targets) (o.lit 0) }

/-- The jobs of one class in a tile. -/
def runClass (begin' : Nat) (ws : TileWorkspace F D) (run : List Nat) : Option (TileWorkspace F D) := do
  let cls := (p.plan.job (run.headD 0)).cls
  let targets := run.length
  let ws ← projectClass o p ws run
  let columns := ws.positions.length
  let ws := run.zipIdx.foldl (fun ws i => filterTarget o p begin' columns targets ws i.2 i.1) ws
  let reconstructed ← gemm o (p.transpose cls) p.d ws.target_codes.elem targets ws.reconstructed targets
    p.d targets p.d
  return { ws with
    reconstructed := reconstructed
    output := ws.output.put (run.zipIdx.flatMap fun i => (List.range p.d).map fun row =>
      ((i.1 - begin') * p.d + row, reconstructed.elem (row * targets + i.2))) }

/-- The image accumulators and the diagnostics. -/
structure Sums (F D : Type) where
  num : Nat → F
  den : Nat → F
  tau_sum : D
  tau_count : Nat

variable (lanes : Nat) (wide : Bool)

/-- The values of tau and the patch of a job, added. -/
def addJob (s : Sums F D) (job : Neighborhood) (taus : List D) (patch : List F) : Sums F D :=
  let sums := aggregateAdd o lanes wide s.num s.den p.width p.height p.cfg.block job.x job.y patch
  { num := sums.1, den := sums.2
    tau_sum := taus.foldl o.dadd s.tau_sum, tau_count := s.tau_count + taus.length }

/-- The jobs from `begin'` on, 128 at most, by class and then in the order of the plan. -/
def runTile (s : Sums F D × TileWorkspace F D) (begin' : Nat) : Option (Sums F D × TileWorkspace F D) := do
  let count := min (p.plan.jobs.length - begin') 128
  let order := sortBy (fun i => toLex ((p.plan.job i).cls, i)) (List.range' begin' count)
  let ws := { s.2 with
    order := order
    output := s.2.output.resize (count * p.d) (o.lit 0)
    taus := s.2.taus.resize (count * p.d) (o.dlit 0) }
  let ws ← (runs (fun i => (p.plan.job i).cls) order).foldlM (runClass o p begin') ws
  let sums := (List.range count).foldl (fun s i => addJob o p lanes wide s (p.plan.job (begin' + i))
    ((List.range p.d).map fun row => ws.taus.elem (i * p.d + row))
    ((List.range p.d).map fun k => ws.output.elem (i * p.d + k))) s.1
  return (sums, ws)

/-- `run_targets`, or `none` where it throws. -/
def runTargets (s : Sums F D) (ws : TileWorkspace F D) (estimate dictionary : Int) :
    Option (Sums F D × TileWorkspace F D) :=
  let ws := ws.beginGeneration estimate dictionary
  let ws := { ws with
    scratch := ws.scratch.resize (p.d * p.cfg.group + p.d + p.cfg.group) (o.lit 0) }
  ((List.range ((p.plan.jobs.length + 127) / 128)).map (· * 128)).foldlM (runTile o p lanes wide) (s, ws)

/-! ## One target at a time -/

/-- The codes of the neighbours of a job on the basis of its own class. -/
def targetCodes (job : Neighborhood) : List (List F) :=
  (List.range job.count).map fun j => (List.range p.d).map fun row =>
    o.dot ((List.range p.d).map fun i => p.basis job.cls (row * p.d + i))
      ((List.range p.d).map (p.patch (p.plan.neighbor o (job.offset + j)).position))

def targetShrunk (job : Neighborhood) : List F × List D :=
  shrinkTarget o p.input_sigma p.match_sigma (targetCodes o p job) p.d job.count job.target p.sigma
    ((List.range job.count).map fun j => (p.plan.neighbor o (job.offset + j)).distance)

/-- The shrunk code of the target, projected back. -/
def targetPatch (job : Neighborhood) : List F :=
  (List.range p.d).map fun row =>
    o.dot ((List.range p.d).map fun i => p.transpose job.cls (row * p.d + i)) (targetShrunk o p job).1

def perTarget (s : Sums F D) : Sums F D :=
  p.plan.jobs.foldl (fun s job => addJob o p lanes wide s job (targetShrunk o p job).2 (targetPatch o p job)) s

end Code

section Proofs

variable {F D α : Type} {o : Ops F D} {p : Pass F D} {v : Vec α} {stores stores' : List (Nat × α)}

theorem Vec.put_put : (v.put stores).put stores' = v.put (stores ++ stores') := by
  rw [Vec.put, Vec.put, Vec.put, Lines.storeAll_append]

theorem Vec.elem_put : (v.put stores).elem = Lines.storeAll stores v.elem := rfl

/-! ## Plans -/

/-- What `match_all` promises of each job. -/
def ValidJob (cfg : SearchConfig) (job : Neighborhood) : Prop :=
  1 ≤ job.count ∧ job.count ≤ cfg.group ∧ job.target < job.count

def Valid (cfg : SearchConfig) (plan : MatchPlan F) : Prop := ∀ job ∈ plan.jobs, ValidJob cfg job

variable {cfg : SearchConfig} {width : Nat} {plan plan' : MatchPlan F}

theorem addMatches_valid {job : Neighborhood} {count : Int} {found : Nat → Match F}
    (h : addMatches cfg width plan job count found = some plan') (hplan : Valid cfg plan) : Valid cfg plan' := by
  unfold addMatches at h
  split at h
  · cases h
  · rename_i hcount
    obtain ⟨target, htarget, rfl⟩ := Option.map_eq_some_iff.mp h
    have hmem := List.mem_of_getLast? htarget
    have hlt := List.mem_range.mp (List.mem_filter.mp hmem).1
    intro job' hjob'
    rcases List.mem_append.mp hjob' with hold | hnew
    · exact hplan job' hold
    · obtain rfl := List.mem_singleton.mp hnew
      exact ⟨by simp only []; omega, by simp only []; omega, hlt⟩

theorem foldlM_valid {β : Type} {f : MatchPlan F → β → Option (MatchPlan F)} (l : List β)
    (hf : ∀ plan plan' x, f plan x = some plan' → Valid cfg plan → Valid cfg plan')
    (h : l.foldlM f plan = some plan') (hplan : Valid cfg plan) : Valid cfg plan' := by
  induction l generalizing plan with
  | nil =>
    obtain rfl := Option.some.inj h
    exact hplan
  | cons x l ih =>
    obtain ⟨mid, hmid, hrest⟩ := Option.bind_eq_some_iff.mp h
    exact ih hrest (hf _ _ _ hmid hplan)

/-- Every plan `match_all` builds is one of valid jobs. -/
theorem matchAll_valid {matcher : Matcher F} {height : Nat} (h : matchAll matcher width height cfg = some plan) :
    Valid cfg plan := by
  refine foldlM_valid _ (fun plan plan' b hb hplan => ?_) h (by simp [Valid])
  obtain ⟨found, -, hfound⟩ := Option.bind_eq_some_iff.mp hb
  exact foldlM_valid _ (fun _ _ _ => addMatches_valid) hfound hplan

theorem assign_valid {dict : Dictionaries F D} {image : Nat → F} {w h block : Nat} (hplan : Valid cfg plan) :
    Valid cfg (assign o plan dict image w h block) := by
  intro job hjob
  obtain ⟨job', hjob', rfl⟩ := List.mem_map.mp hjob
  exact hplan job' hjob'

theorem Valid.job {i : Nat} (h : Valid cfg plan) (hi : i < plan.jobs.length) : ValidJob cfg (plan.job i) := by
  rw [MatchPlan.job, List.getD_eq_getElem?_getD, List.getElem?_eq_getElem hi, Option.getD_some]
  exact h _ (List.getElem_mem hi)

/-! ## A class -/

theorem gemm_eq {a b : Nat → F} {c : Vec F} {n m k : Nat} :
    gemm o a k b n c n m n k = some (c.put ((List.range m).flatMap fun row => (List.range n).map fun col =>
      (row * n + col, o.dot ((List.range k).map fun i => a (row * k + i))
        ((List.range k).map fun i => b (i * n + col))))) := if_neg (by omega)

/-- The columns packed so far. -/
theorem packColumns (columns : Nat) (ws : TileWorkspace F D) {n : Nat} (hn : n ≤ columns) :
    ∃ scratch packed, (List.range n).foldl (packColumn p columns) ws =
        { ws with scratch := scratch, packed := packed } ∧
      ∀ j < n, ∀ row < p.d, packed.elem (row * columns + j) = p.patch (ws.positions.getD j 0) row := by
  induction n with
  | zero => exact ⟨ws.scratch, ws.packed, rfl, by omega⟩
  | succ n ih =>
    obtain ⟨scratch, packed, heq, hpacked⟩ := ih (by omega)
    rw [List.range_succ, List.foldl_append, heq]
    refine ⟨_, _, rfl, fun j hj row hrow => ?_⟩
    rw [Vec.elem_put, Lines.storeAll_column hrow (by omega) (by omega)]
    by_cases hjn : j = n
    · subst hjn
      rw [if_pos rfl, Vec.elem_put, Lines.storeAll_of_mem fun x => p.patch (ws.positions.getD j 0)
        (x - p.d * p.cfg.group)]
      · rw [Nat.add_sub_cancel_left]
      · intro s hs
        obtain ⟨r, -, rfl⟩ := List.mem_map.mp hs
        rw [Nat.add_sub_cancel_left]
      · rw [List.map_map]
        exact List.mem_map.mpr ⟨row, List.mem_range.mpr hrow, rfl⟩
    · rw [if_neg hjn]
      exact hpacked j (by omega) row hrow

/-- What the workspace of a class holds when its targets are filtered. -/
structure Projected (o : Ops F D) (p : Pass F D) (cls columns : Nat) (ws : TileWorkspace F D) : Prop where
  increasing : ws.positions.Pairwise (· < ·)
  size : ws.positions.length = columns
  entry : ∀ row < p.d, ∀ j < columns, ws.projected.elem (row * columns + j) =
    o.dot ((List.range p.d).map fun i => p.basis cls (row * p.d + i))
      ((List.range p.d).map (p.patch (ws.positions.getD j 0)))

/-- The code of a position is where `lower_bound` points. -/
theorem Projected.slot {cls columns : Nat} {ws : TileWorkspace F D} (h : Projected o p cls columns ws)
    {position row : Nat} (hpos : position ∈ ws.positions) (hrow : row < p.d) :
    ws.projected.elem (row * columns + lowerBound ws.positions position) =
      o.dot ((List.range p.d).map fun i => p.basis cls (row * p.d + i))
        ((List.range p.d).map (p.patch position)) := by
  have hfound := getElem_lowerBound h.increasing hpos
  obtain ⟨hlt, -⟩ := List.getElem?_eq_some_iff.mp hfound
  rw [h.entry row hrow _ (h.size ▸ hlt), List.getD_eq_getElem?_getD, hfound, Option.getD_some]

/-- The codes and the distances of the neighbours loaded so far; they do not meet. -/
theorem loadNeighbors {cls columns : Nat} {job : Neighborhood} {ws : TileWorkspace F D}
    (h : Projected o p cls columns ws)
    (hpos : ∀ j < job.count, (p.plan.neighbor o (job.offset + j)).position ∈ ws.positions)
    (hgroup : job.count ≤ p.cfg.group) {n : Nat} (hn : n ≤ job.count) :
    ∃ scratch, (List.range n).foldl (loadNeighbor o p job columns) ws = { ws with scratch := scratch } ∧
      ∀ j < n, (∀ row < p.d, scratch.elem (j * p.d + row) =
        o.dot ((List.range p.d).map fun i => p.basis cls (row * p.d + i))
          ((List.range p.d).map (p.patch (p.plan.neighbor o (job.offset + j)).position))) ∧
        scratch.elem (p.d * p.cfg.group + p.d + j) = (p.plan.neighbor o (job.offset + j)).distance := by
  induction n with
  | zero => exact ⟨ws.scratch, rfl, by omega⟩
  | succ n ih =>
    obtain ⟨scratch, heq, hscratch⟩ := ih (by omega)
    rw [List.range_succ, List.foldl_append, heq]
    refine ⟨_, rfl, fun j hj => ?_⟩
    have hgroup' : (n + 1) * p.d ≤ p.cfg.group * p.d := Nat.mul_le_mul_right _ (by omega)
    have hsucc : (n + 1) * p.d = n * p.d + p.d := by ring
    have hcomm : p.cfg.group * p.d = p.d * p.cfg.group := Nat.mul_comm _ _
    -- the code first, then the distance
    have hput : ∀ (w : Vec F) (code : Nat → F) (value : F) (x : Nat),
        (w.put ((List.range p.d).map (fun row => (n * p.d + row, code row)) ++
          [(p.d * p.cfg.group + p.d + n, value)])).elem x =
        if x = p.d * p.cfg.group + p.d + n then value
        else if n * p.d ≤ x ∧ x < n * p.d + p.d then code (x - n * p.d) else w.elem x := by
      intro w code value x
      have hcode : Lines.storeAll ((List.range p.d).map fun row => (n * p.d + row, code row)) w.elem x =
          if n * p.d ≤ x ∧ x < n * p.d + p.d then code (x - n * p.d) else w.elem x := Lines.storeRun_apply
      rw [Vec.elem_put, Lines.storeAll_append, ← hcode]
      exact Function.update_apply ..
    constructor
    · intro row hrow
      have hj' : (j + 1) * p.d ≤ (n + 1) * p.d := Nat.mul_le_mul_right _ (by omega)
      have hjsucc : (j + 1) * p.d = j * p.d + p.d := by ring
      refine (hput _ _ _ _).trans ?_
      rw [if_neg (by omega)]
      by_cases hjn : j = n
      · subst hjn
        rw [if_pos (by omega), Nat.add_sub_cancel_left]
        exact h.slot (hpos j (by omega)) hrow
      · have hlate : (j + 1) * p.d ≤ n * p.d := Nat.mul_le_mul_right _ (by omega)
        rw [if_neg (by omega)]
        exact (hscratch j (by omega)).1 row hrow
    · refine (hput _ _ _ _).trans ?_
      by_cases hjn : j = n
      · rw [if_pos (by omega), hjn]
      · rw [if_neg (by omega), if_neg (by omega)]
        exact (hscratch j (by omega)).2

/-- A list stored at consecutive places. -/
theorem stores_zipIdx {l : List α} {n base : Nat} (hl : l.length = n) (zero : α) :
    (l.zipIdx.map fun v => (base + v.2, v.1)) = (List.range n).map fun row => (base + row, l.getD row zero) := by
  subst hl
  refine List.ext_getElem (by simp) fun i hi _ => ?_
  simp only [List.length_map, List.length_zipIdx] at hi
  simp [hi]

theorem length_targetShrunk (o : Ops F D) (p : Pass F D) (job : Neighborhood) :
    (targetShrunk o p job).1.length = p.d ∧ (targetShrunk o p job).2.length = p.d := by
  simp [targetShrunk, shrinkTarget]

/-- The results of a job, sample by sample. -/
def tauSample (o : Ops F D) (p : Pass F D) (i row : Nat) : D :=
  (targetShrunk o p (p.plan.job i)).2.getD row (o.dlit 0)

def shrunkSample (o : Ops F D) (p : Pass F D) (i row : Nat) : F :=
  (targetShrunk o p (p.plan.job i)).1.getD row (o.lit 0)

def patchSample (o : Ops F D) (p : Pass F D) (i row : Nat) : F :=
  o.dot ((List.range p.d).map fun k => p.transpose (p.plan.job i).cls (row * p.d + k))
    ((List.range p.d).map (shrunkSample o p i))

/-- Where the job keeps its row of a tile's results. -/
def rowStores (p : Pass F D) (begin' ordinal : Nat) (row : Nat → α) : List (Nat × α) :=
  (List.range p.d).map fun i => ((ordinal - begin') * p.d + i, row i)

theorem filterTarget_eq (begin' targets i : Nat) {columns ordinal : Nat} {ws : TileWorkspace F D}
    (h : Projected o p (p.plan.job ordinal).cls columns ws) (hjob : ValidJob p.cfg (p.plan.job ordinal))
    (hpos : ∀ j < (p.plan.job ordinal).count,
      (p.plan.neighbor o ((p.plan.job ordinal).offset + j)).position ∈ ws.positions) :
    ∃ scratch, filterTarget o p begin' columns targets ws i ordinal = { ws with
      scratch := scratch
      taus := ws.taus.put (rowStores p begin' ordinal (tauSample o p ordinal))
      target_codes := ws.target_codes.put ((List.range p.d).map fun row =>
        (row * targets + i, shrunkSample o p ordinal row)) } := by
  obtain ⟨hcount, hgroup, htarget⟩ := hjob
  obtain ⟨scratch, heq, hscratch⟩ := loadNeighbors h hpos hgroup (Nat.le_refl _)
  have hcodes : ((List.range (p.plan.job ordinal).count).map fun j => (List.range p.d).map fun d =>
      scratch.elem (j * p.d + d)) = targetCodes o p (p.plan.job ordinal) :=
    List.map_congr_left fun j hj => List.map_congr_left fun row hrow =>
      (hscratch j (List.mem_range.mp hj)).1 row (List.mem_range.mp hrow)
  have hdistances : ((List.range (p.plan.job ordinal).count).map fun j =>
      scratch.elem (p.d * p.cfg.group + p.d + j)) = (List.range (p.plan.job ordinal).count).map fun j =>
        (p.plan.neighbor o ((p.plan.job ordinal).offset + j)).distance :=
    List.map_congr_left fun j hj => (hscratch j (List.mem_range.mp hj)).2
  have hshrunk := length_targetShrunk o p (p.plan.job ordinal)
  have hback : ∀ shrunk : Nat → F, ((List.range p.d).map fun row => (row * targets + i,
      (scratch.put ((List.range p.d).map fun row => ((p.plan.job ordinal).target * p.d + row, shrunk row))).elem
        ((p.plan.job ordinal).target * p.d + row))) =
      (List.range p.d).map fun row => (row * targets + i, shrunk row) := by
    intro shrunk
    refine List.map_congr_left fun row hrow => congrArg (Prod.mk _) ?_
    have hrow := List.mem_range.mp hrow
    refine Lines.storeRun_apply.trans ?_
    rw [if_pos (by omega), Nat.add_sub_cancel_left]
  simp only [filterTarget, heq, hcodes, hdistances]
  rw [← targetShrunk, stores_zipIdx hshrunk.1 (o.lit 0), stores_zipIdx hshrunk.2 (o.dlit 0), hback]
  exact ⟨_, rfl⟩

/-- The targets of a run, its first one in column `k`. -/
theorem filterTargets (begin' targets : Nat) {cls columns : Nat} {run : List Nat} (k : Nat) (ws : TileWorkspace F D)
    (h : Projected o p cls columns ws)
    (hrun : ∀ i ∈ run, (p.plan.job i).cls = cls ∧ ValidJob p.cfg (p.plan.job i) ∧
      ∀ j < (p.plan.job i).count, (p.plan.neighbor o ((p.plan.job i).offset + j)).position ∈ ws.positions) :
    ∃ scratch, (run.zipIdx k).foldl (fun ws i => filterTarget o p begin' columns targets ws i.2 i.1) ws = { ws with
      scratch := scratch
      taus := ws.taus.put (run.flatMap fun i => rowStores p begin' i (tauSample o p i))
      target_codes := ws.target_codes.put ((run.zipIdx k).flatMap fun i => (List.range p.d).map fun row =>
        (row * targets + i.2, shrunkSample o p i.1 row)) } := by
  induction run generalizing k ws with
  | nil => exact ⟨ws.scratch, rfl⟩
  | cons i run ih =>
    obtain ⟨hcls, hvalid, hpos⟩ := hrun i List.mem_cons_self
    subst hcls
    obtain ⟨scratch, hfirst⟩ := filterTarget_eq begin' targets k h hvalid hpos
    obtain ⟨scratch', hrest⟩ := ih (k + 1) ({ ws with
      scratch := scratch
      taus := ws.taus.put (rowStores p begin' i (tauSample o p i))
      target_codes := ws.target_codes.put ((List.range p.d).map fun row =>
        (row * targets + k, shrunkSample o p i row)) })
      ⟨h.increasing, h.size, h.entry⟩ fun i' hi' => hrun i' (List.mem_cons_of_mem _ hi')
    refine ⟨scratch', ?_⟩
    rw [List.zipIdx_cons, List.foldl_cons, hfirst, hrest]
    simp only [Vec.put_put, List.flatMap_cons]

/-- A function of the elements, whatever their places. -/
theorem flatMap_zipIdx {β γ : Type} (l : List β) (g : β → List γ) (f : β × Nat → List γ)
    (h : ∀ i ∈ l.zipIdx, f i = g i.1) : l.zipIdx.flatMap f = l.flatMap g := by
  rw [List.flatMap_congr h, ← List.flatMap_map, List.zipIdx_map_fst]

theorem getElem?_of_mem_zipIdx {β : Type} {l : List β} {i : β × Nat} (h : i ∈ l.zipIdx) :
    l[i.2]? = some i.1 := by
  obtain ⟨x, k⟩ := i
  exact List.mem_zipIdx_iff_getElem?.mp h

/-- The codes of the targets of a run, by columns. -/
theorem targetColumns {run : List Nat} {codes : Vec F} {i : Nat × Nat} (hi : i ∈ run.zipIdx) {row : Nat}
    (hrow : row < p.d) :
    (codes.put (run.zipIdx.flatMap fun i => (List.range p.d).map fun row =>
      (row * run.length + i.2, shrunkSample o p i.1 row))).elem (row * run.length + i.2) =
      shrunkSample o p i.1 row := by
  have hplace : ∀ i ∈ run.zipIdx, i.2 < run.length ∧ run.getD i.2 0 = i.1 := by
    intro i hi
    have hget := getElem?_of_mem_zipIdx hi
    exact ⟨(List.getElem?_eq_some_iff.mp hget).1, by rw [List.getD_eq_getElem?_getD, hget, Option.getD_some]⟩
  have hvalue : ∀ i ∈ run.zipIdx, ∀ row, shrunkSample o p i.1 row =
      shrunkSample o p (run.getD ((row * run.length + i.2) % run.length) 0)
        ((row * run.length + i.2) / run.length) := by
    intro i hi row
    rw [Lines.mod_row (hplace i hi).1, Lines.div_row (hplace i hi).1, (hplace i hi).2]
  rw [Vec.elem_put, Lines.storeAll_of_mem fun x => shrunkSample o p (run.getD (x % run.length) 0) (x / run.length)]
  · exact (hvalue i hi row).symm
  · intro s hs
    obtain ⟨i', hi', hs⟩ := List.mem_flatMap.mp hs
    obtain ⟨row', -, rfl⟩ := List.mem_map.mp hs
    exact hvalue i' hi' row'
  · refine List.mem_map.mpr ⟨(row * run.length + i.2, shrunkSample o p i.1 row), ?_, rfl⟩
    exact List.mem_flatMap.mpr ⟨i, hi, List.mem_map.mpr ⟨row, List.mem_range.mpr hrow, rfl⟩⟩

theorem projectClass_eq (ws : TileWorkspace F D) {run rest : List Nat} {first : Nat}
    (hfirst : run = first :: rest) :
    ∃ ws', projectClass o p ws run = some ws' ∧ Projected o p (p.plan.job first).cls ws'.positions.length ws' ∧
      ws'.positions = distinct (requested o p run) ∧ ws'.taus = ws.taus ∧ ws'.output = ws.output := by
  have hhead : run.headD 0 = first := by rw [hfirst]; rfl
  rw [projectClass]
  simp only [hhead]
  obtain ⟨scratch, packed, hpack, hpacked⟩ := packColumns (p := p)
    (distinct (requested o p run)).length { ws with
      cls := (p.plan.job first).cls, positions := distinct (requested o p run)
      requested := ws.requested + (requested o p run).length
      unique := ws.unique + (distinct (requested o p run)).length
      packed := ws.packed.resize (p.d * (distinct (requested o p run)).length) (o.lit 0)
      projected := ws.projected.resize (p.d * (distinct (requested o p run)).length) (o.lit 0) } (Nat.le_refl _)
  rw [hpack, gemm_eq, Option.bind_eq_bind, Option.bind_some]
  refine ⟨_, rfl, ⟨distinct_lt _, rfl, fun row hrow j hj => ?_⟩, rfl, rfl, rfl⟩
  refine (Lines.storeAll_matrix (Nat.le_refl _) hrow hj).trans (congrArg _ ?_)
  exact List.map_congr_left fun i hi => hpacked j hj i (List.mem_range.mp hi)

/-- A run leaves the results of its own jobs at their rows of the tile. -/
theorem runClass_eq (begin' : Nat) (ws : TileWorkspace F D) {run rest : List Nat} {first : Nat}
    (hfirst : run = first :: rest) (hcls : ∀ i ∈ run, (p.plan.job i).cls = (p.plan.job first).cls)
    (hvalid : ∀ i ∈ run, ValidJob p.cfg (p.plan.job i)) :
    ∃ ws', runClass o p begin' ws run = some ws' ∧
      ws'.taus = ws.taus.put (run.flatMap fun i => rowStores p begin' i (tauSample o p i)) ∧
      ws'.output = ws.output.put (run.flatMap fun i => rowStores p begin' i (patchSample o p i)) := by
  have hhead : run.headD 0 = first := by rw [hfirst]; rfl
  obtain ⟨ws₁, hproject, hprojected, hpositions, htaus, houtput⟩ := projectClass_eq ws hfirst
  have hpos : ∀ i ∈ run, ∀ j < (p.plan.job i).count,
      (p.plan.neighbor o ((p.plan.job i).offset + j)).position ∈ ws₁.positions := by
    intro i hi j hj
    rw [hpositions]
    exact mem_distinct.mpr (List.mem_flatMap.mpr ⟨i, hi, List.mem_map.mpr ⟨j, List.mem_range.mpr hj, rfl⟩⟩)
  obtain ⟨scratch, hfilter⟩ := filterTargets begin' run.length 0 ws₁ hprojected
    fun i hi => ⟨hcls i hi, hvalid i hi, hpos i hi⟩
  rw [runClass, hproject, Option.bind_eq_bind, Option.bind_some, hhead]
  dsimp only
  rw [hfilter, gemm_eq, Option.bind_eq_bind, Option.bind_some]
  refine ⟨_, rfl, by rw [← htaus], ?_⟩
  rw [← houtput]
  refine congrArg ws₁.output.put (flatMap_zipIdx _ _ _ fun i hi => ?_)
  have hget := getElem?_of_mem_zipIdx hi
  obtain ⟨hlt, -⟩ := List.getElem?_eq_some_iff.mp hget
  refine List.map_congr_left fun row hrow => congrArg (Prod.mk _) ?_
  refine (Lines.storeAll_matrix (Nat.le_refl _) (List.mem_range.mp hrow) hlt).trans ?_
  rw [patchSample, hcls i.1 (List.mem_of_getElem? hget)]
  exact congrArg _ (List.map_congr_left fun k hk => targetColumns hi (List.mem_range.mp hk))

/-! ## Tiles -/

/-- The runs of a tile, one after the other. -/
theorem runClasses_eq (begin' : Nat) (l : List (List Nat)) (ws : TileWorkspace F D)
    (hruns : ∀ run ∈ l, ∃ first rest, run = first :: rest ∧
      ∀ i ∈ run, (p.plan.job i).cls = (p.plan.job first).cls)
    (hvalid : ∀ run ∈ l, ∀ i ∈ run, ValidJob p.cfg (p.plan.job i)) :
    ∃ ws', l.foldlM (runClass o p begin') ws = some ws' ∧
      ws'.taus = ws.taus.put (l.flatten.flatMap fun i => rowStores p begin' i (tauSample o p i)) ∧
      ws'.output = ws.output.put (l.flatten.flatMap fun i => rowStores p begin' i (patchSample o p i)) := by
  induction l generalizing ws with
  | nil => exact ⟨ws, rfl, rfl, rfl⟩
  | cons run l ih =>
    obtain ⟨first, rest, hfirst, hcls⟩ := hruns run List.mem_cons_self
    obtain ⟨ws₁, hrun, htaus, houtput⟩ := runClass_eq begin' ws hfirst hcls
      (hvalid run List.mem_cons_self)
    obtain ⟨ws₂, hrest, htaus', houtput'⟩ := ih ws₁ (fun r hr => hruns r (List.mem_cons_of_mem _ hr))
      fun r hr => hvalid r (List.mem_cons_of_mem _ hr)
    refine ⟨ws₂, ?_, ?_, ?_⟩
    · rw [List.foldlM_cons, hrun]
      exact hrest
    · rw [htaus', htaus, Vec.put_put, List.flatten_cons, List.flatMap_append]
    · rw [houtput', houtput, Vec.put_put, List.flatten_cons, List.flatMap_append]

/-- The row of job `i` of a tile, when every job has stored its own. -/
theorem tileRow {begin' count i : Nat} {order : List Nat} {v : Vec α} {sample : Nat → Nat → α}
    (horder : order.Perm (List.range' begin' count)) (hi : i < count) :
    ((List.range p.d).map fun row => (v.put (order.flatMap fun i => rowStores p begin' i (sample i))).elem
      (i * p.d + row)) = (List.range p.d).map (sample (begin' + i)) := by
  refine List.map_congr_left fun row hrow => ?_
  have hrow := List.mem_range.mp hrow
  rw [Vec.elem_put, Lines.storeAll_of_mem fun x => sample (begin' + x / p.d) (x % p.d)]
  · rw [Lines.div_row hrow, Lines.mod_row hrow]
  · intro s hs
    obtain ⟨i', hi', hs⟩ := List.mem_flatMap.mp hs
    obtain ⟨row', hrow', rfl⟩ := List.mem_map.mp hs
    have hmem := List.mem_range'_1.mp (horder.mem_iff.mp hi')
    rw [Lines.div_row (List.mem_range.mp hrow'), Lines.mod_row (List.mem_range.mp hrow'),
      show begin' + (i' - begin') = i' by omega]
  · refine List.mem_map.mpr ⟨(i * p.d + row, sample (begin' + i) row), ?_, rfl⟩
    refine List.mem_flatMap.mpr ⟨begin' + i, horder.mem_iff.mpr (List.mem_range'_1.mpr (by omega)), ?_⟩
    refine List.mem_map.mpr ⟨row, List.mem_range.mpr hrow, ?_⟩
    rw [Nat.add_sub_cancel_left]

theorem list_of_length {l : List α} {n : Nat} (h : l.length = n) (zero : α) :
    ((List.range n).map fun i => l.getD i zero) = l := by
  subst h
  refine List.ext_getElem (by simp) fun i hi _ => ?_
  simp only [List.length_map, List.length_range] at hi
  simp [hi]

theorem samples_eq {i : Nat} : (List.range p.d).map (tauSample o p i) = (targetShrunk o p (p.plan.job i)).2 ∧
    (List.range p.d).map (patchSample o p i) = targetPatch o p (p.plan.job i) := by
  have hlen := length_targetShrunk o p (p.plan.job i)
  have hshrunk : (List.range p.d).map (shrunkSample o p i) = (targetShrunk o p (p.plan.job i)).1 :=
    list_of_length hlen.1 _
  refine ⟨list_of_length hlen.2 _, ?_⟩
  unfold targetPatch
  refine List.map_congr_left fun row _ => ?_
  rw [patchSample, hshrunk]

variable {lanes : Nat} {wide : Bool}

/-- One job of the algorithm for one target at a time. -/
def oneTarget (o : Ops F D) (p : Pass F D) (lanes : Nat) (wide : Bool) (s : Sums F D) (i : Nat) : Sums F D :=
  addJob o p lanes wide s (p.plan.job i) (targetShrunk o p (p.plan.job i)).2 (targetPatch o p (p.plan.job i))

theorem runTile_eq (o : Ops F D) (lanes : Nat) (wide : Bool) (hvalid : Valid p.cfg p.plan) (s : Sums F D) (ws : TileWorkspace F D) (begin' : Nat) :
    ∃ ws', runTile o p lanes wide (s, ws) begin' =
      some ((List.range' begin' (min (p.plan.jobs.length - begin') 128)).foldl (oneTarget o p lanes wide) s, ws') := by
  generalize hcount : min (p.plan.jobs.length - begin') 128 = count
  have horder := sortBy_perm (fun i => toLex ((p.plan.job i).cls, i)) (List.range' begin' count)
  generalize hsorted : sortBy (fun i => toLex ((p.plan.job i).cls, i)) (List.range' begin' count) = order at horder
  have hflat := runs_flatten (fun i => (p.plan.job i).cls) order
  obtain ⟨ws', hruns, htaus, houtput⟩ := runClasses_eq (o := o) (p := p) begin'
    (runs (fun i => (p.plan.job i).cls) order) ({ ws with
      order := order
      output := ws.output.resize (count * p.d) (o.lit 0)
      taus := ws.taus.resize (count * p.d) (o.dlit 0) }) (fun run hrun => runs_equal hrun) fun run hrun i hi => by
    have hmem : i ∈ order := hflat ▸ List.mem_flatten.mpr ⟨run, hrun, hi⟩
    have := List.mem_range'_1.mp (horder.mem_iff.mp hmem)
    exact hvalid.job (by omega)
  rw [hflat] at htaus houtput
  refine ⟨ws', ?_⟩
  rw [runTile]
  simp only [hcount, hsorted, hruns]
  refine congrArg (fun sums => some (sums, ws')) ?_
  rw [List.range'_eq_map_range, List.foldl_map]
  refine List.foldl_ext _ _ _ fun s i hi => ?_
  have hi := List.mem_range.mp hi
  rw [htaus, houtput, tileRow horder hi, tileRow horder hi, samples_eq.1, samples_eq.2]
  rfl

/-- The tiles meet every job once, in order. -/
theorem tiles_flatMap (n b : Nat) :
    ((List.range b).flatMap fun t => List.range' (t * 128) (min (n - t * 128) 128)) =
      List.range (min n (b * 128)) := by
  induction b with
  | zero => simp
  | succ b ih =>
    rw [List.range_succ, List.flatMap_append, ih, List.flatMap_cons, List.flatMap_nil, List.append_nil]
    rcases Nat.le_total n (b * 128) with hle | hle
    · rw [show min (n - b * 128) 128 = 0 by omega, List.range'_zero, List.append_nil]
      congr 1
      omega
    · rw [Nat.min_eq_right hle, show min n ((b + 1) * 128) = b * 128 + min (n - b * 128) 128 by omega,
        List.range_add, List.range'_eq_map_range]

theorem runTiles_eq (o : Ops F D) (lanes : Nat) (wide : Bool) (hvalid : Valid p.cfg p.plan) (l : List Nat) (s : Sums F D) (ws : TileWorkspace F D) :
    ∃ ws', l.foldlM (runTile o p lanes wide) (s, ws) = some ((l.flatMap fun b =>
      List.range' b (min (p.plan.jobs.length - b) 128)).foldl (oneTarget o p lanes wide) s, ws') := by
  induction l generalizing s ws with
  | nil => exact ⟨ws, rfl⟩
  | cons b l ih =>
    obtain ⟨ws₁, hfirst⟩ := runTile_eq o lanes wide hvalid s ws b
    obtain ⟨ws₂, hrest⟩ := ih ((List.range' b (min (p.plan.jobs.length - b) 128)).foldl
      (oneTarget o p lanes wide) s) ws₁
    refine ⟨ws₂, ?_⟩
    rw [List.foldlM_cons, hfirst, List.flatMap_cons, List.foldl_append]
    exact hrest

theorem perTarget_eq (s : Sums F D) :
    perTarget o p lanes wide s = (List.range p.plan.jobs.length).foldl (oneTarget o p lanes wide) s := by
  have hjobs := list_of_length (l := p.plan.jobs) rfl ⟨0, 0, 0, 0, 0, 0⟩
  unfold perTarget
  rw [← hjobs, List.foldl_map]
  simp only [List.length_map, List.length_range]
  refine List.foldl_ext _ _ _ fun s i hi => ?_
  rfl

/-- On a plan `match_all` has built, with any classes, `run_targets` adds what the algorithm for
one target at a time adds, in the order of the jobs, whatever its workspace held; and every
neighbour is found among the positions of its run. -/
theorem runTargets_eq (o : Ops F D) (p : Pass F D) (matcher : Matcher F) (image : Nat → F)
    (dict : Dictionaries F D) (hplan : (matchAll matcher p.width p.height p.cfg).map
      (fun plan => assign o plan dict image p.width p.height p.cfg.block) = some p.plan)
    (lanes : Nat) (wide : Bool) (s : Sums F D) (ws : TileWorkspace F D) (estimate dictionary : Int) :
    (∃ ws', runTargets o p lanes wide s ws estimate dictionary = some (perTarget o p lanes wide s, ws')) ∧
      ∀ run : List Nat, ∀ i ∈ run, ∀ j < (p.plan.job i).count,
        (distinct (requested o p run))[lowerBound (distinct (requested o p run))
          (p.plan.neighbor o ((p.plan.job i).offset + j)).position]? =
            some (p.plan.neighbor o ((p.plan.job i).offset + j)).position := by
  constructor
  · obtain ⟨plan, hmatch, hassign⟩ := Option.map_eq_some_iff.mp hplan
    have hvalid : Valid p.cfg p.plan := hassign ▸ assign_valid (matchAll_valid hmatch)
    obtain ⟨ws', hrun⟩ := runTiles_eq o lanes wide hvalid
      ((List.range ((p.plan.jobs.length + 127) / 128)).map (· * 128)) s { ws.beginGeneration estimate dictionary with
        scratch := ws.scratch.resize (p.d * p.cfg.group + p.d + p.cfg.group) (o.lit 0) }
    refine ⟨ws', hrun.trans ?_⟩
    rw [perTarget_eq, List.flatMap_map, tiles_flatMap, show min p.plan.jobs.length
      ((p.plan.jobs.length + 127) / 128 * 128) = p.plan.jobs.length by omega]
  · intro run i hi j hj
    refine getElem_lowerBound (distinct_lt _) (mem_distinct.mpr (List.mem_flatMap.mpr ⟨i, hi, ?_⟩))
    exact List.mem_map.mpr ⟨j, List.mem_range.mpr hj, rfl⟩

/-- Arithmetic of integers, with truncated division. -/
def intOps : Ops Int Int where
  lit q := q.num / q.den
  ofNat n := n
  inf := 1000000
  add := (· + ·)
  sub := (· - ·)
  mul := (· * ·)
  div := (· / ·)
  max := max
  min := min
  neg x := -x
  abs x := x.natAbs
  exp x := x + 1
  copysign x y := if y < 0 then -x else x
  mulAdd x y z := x * y + z
  lt x y := x < y
  le x y := x ≤ y
  toD x := x
  toF x := x
  dlit q := q.num / q.den
  dofNat n := n
  dinf := 1000000
  dadd := (· + ·)
  dsub := (· - ·)
  dmul := (· * ·)
  ddiv := (· / ·)
  dmax := max
  dsqrt x := x
  dlt x y := x < y
  dot a b := (a.zipWith (· * ·) b).sum

/-- A row of two pixels, matched each with itself. -/
def twoPixels : Pass Int Int where
  input_sigma := 1
  match_sigma := 1
  image x := x + 5
  width := 2
  height := 1
  cfg := ⟨1, 0, 1, 1⟩
  sigma := 1
  plan := ⟨[⟨0, 0, 1, 0, 0, 0⟩, ⟨1, 0, 1, 0, 0, 1⟩], [⟨0, 0⟩, ⟨1, 0⟩]⟩
  dict := ⟨fun _ => none, fun _ _ => 0, fun _ => 0, 0, 0⟩
  fallback _ := 1
  fallback_transpose _ := 1

theorem runTargets_eq_twoPixels :
    ∃ ws', runTargets intOps twoPixels 8 true ⟨fun _ => 0, fun _ => 0, 0, 0⟩
      ⟨[], [], ⟨0, fun _ => 7⟩, ⟨0, fun _ => 7⟩, ⟨0, fun _ => 7⟩, ⟨0, fun _ => 7⟩, ⟨0, fun _ => 7⟩,
        ⟨0, fun _ => 7⟩, ⟨0, fun _ => 7⟩, 0, 0, -1, -1, -1⟩ 0 0 =
        some (perTarget intOps twoPixels 8 true ⟨fun _ => 0, fun _ => 0, 0, 0⟩, ws') :=
  (runTargets_eq intOps twoPixels
    (fun batch => some (fun _ => 1, fun i _ => ⟨(batch.getD i ⟨0, 0, 0, 0, 0, 0⟩).x, 0, 0⟩))
    twoPixels.image twoPixels.dict (by rfl) 8 true _ _ 0 0).1

end Proofs

end NssFactory.Cpu.NcsrHq

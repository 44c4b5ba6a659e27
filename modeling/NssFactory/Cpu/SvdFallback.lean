import NssFactory.Cpu.Batch
import NssFactory.Cpu.SvdFinish

/-!
# Failed decompositions in the batches

`SvdPaths` is `SvdKernel` without its laws: what the lanes make of a matrix may differ from what
the scalar decomposition makes of it and may depend on the matrices beside it, and `finish_sv`
need not be `finish_wnnm`. An item of `wnnm_shrink_batch` or `ncsr_filter_group_batch` can fail
on three levels: the lanes fail as a whole, its own values are unusable, the scalar
decomposition fails. `wnnmShrinkBatch_fallback` and `ncsrFilterGroupBatch_fallback` say what
comes of it, whatever becomes of the others: its group is finished from a decomposition that
succeeded, or it is put back as it was.
-/

namespace NssFactory.Cpu

open Visits SvdFinish

/-! ## The kernels without their laws -/

section Paths

variable {G M V W D : Type*}

/-- Several decompositions in the lanes of one call, one for each matrix when it succeeds. -/
structure Lanes (G V : Type*) where
  run : (m : Int) → List (Int × G) → Option (List V)
  length_eq : ∀ {m gs vs}, run m gs = some vs → vs.length = gs.length

/-- A call of the lanes gave a matrix `g` the values `v`. -/
def Lanes.Gave (lanes : Lanes G V) (lda : Int) (g : G) (v : V) : Prop :=
  ∃ m gs vs, lanes.run m gs = some vs ∧ ((lda, g), v) ∈ gs.zip vs

structure SvdPaths (G M V W D : Type*) where
  groupCenterSub : (m n lda : Int) → G → G × M
  groupCenterAdd : (m n lda : Int) → G → M → G
  svdEconomy : (m n lda : Int) → G → Option V
  finiteSingularValues : V → Bool
  svdEconomy8BatchSv : Lanes G V
  svdEconomy8BatchU : Lanes G V
  finishWnnm : (m n lda : Int) → (sigma : F32) → (residual adaptive : Int) → G → V → Option M → G × W
  finishSv : (m n lda : Int) → (sigma : F32) → (residual adaptive : Int) → G → V → Option M → G × W
  finishNcsr : (m n lda : Int) → (sigma : F32) → (colDist : Option D) → G → V → M → G
  finishNcsrBatchItem : (m n lda : Int) → (sigma : F32) → (colDist : Option D) → G → V → M → G

variable (paths : SvdPaths G M V W D)

/-- What the single calls use: no lanes. -/
def SvdPaths.scalar : SvdKernel G M V W D where
  groupCenterSub := paths.groupCenterSub
  groupCenterAdd := paths.groupCenterAdd
  svdEconomy := paths.svdEconomy
  finiteSingularValues := paths.finiteSingularValues
  svdEconomy8BatchSv := ⟨fun _ _ => none, nofun, nofun⟩
  svdEconomy8BatchU := ⟨fun _ _ => none, nofun, nofun⟩
  finishWnnm := paths.finishWnnm
  finishSv := paths.finishWnnm
  finishSv_eq := rfl
  finishNcsr := paths.finishNcsr
  finishNcsrBatchItem := paths.finishNcsr
  finishNcsrBatchItem_eq := rfl

namespace WnnmShrinkBatchItem

variable (item : WnnmShrinkBatchItem G W)

/-- An item after the lanes: its values may still be unusable. -/
def finishLane (g : G) (mean : Option M) (v : V) : WnnmShrinkBatchItem G W × Bool :=
  if paths.finiteSingularValues v then
    let (g, w) := paths.finishSv item.m item.n item.lda item.sigma item.residual item.adaptive g v
      mean
    item.settle (some g, item.adaptiveWeight.map fun _ => w, true)
  else item.retry paths.scalar g mean

/-- The items of a bucket that go through the lanes together. -/
def bucketLanes (batch : List (WnnmShrinkBatchItem G W)) : List (WnnmShrinkBatchItem G W × Bool) :=
  match batch with
  | [] => []
  | first :: _ =>
    let centred := batch.filterMap fun item => item.group.map fun g =>
      (item, wnnmCenter paths.scalar item.m item.n item.lda item.residual g)
    match paths.svdEconomy8BatchSv.run first.m (centred.map fun c => (c.1.lda, c.2.1)) with
    | none => centred.map fun c => c.1.retry paths.scalar c.2.1 c.2.2
    | some vs => (centred.zip vs).map fun c => c.1.1.finishLane paths c.1.2.1 c.1.2.2 c.2

end WnnmShrinkBatchItem

def SvdPaths.wnnmShrinkBatch (items : List (WnnmShrinkBatchItem G W)) :
    List (WnnmShrinkBatchItem G W) × Nat :=
  laneBatch WnnmShrinkBatchItem.less WnnmShrinkBatchItem.same (·.eligible)
    (·.process paths.scalar) (WnnmShrinkBatchItem.bucketLanes paths) (items.map (·.reset))

namespace NcsrFilterBatchItem

variable (item : NcsrFilterBatchItem G D)

/-- An item after the lanes; `none` where the lanes failed as a whole. -/
def finishLane (m n : Int) (g : G) (mean : M) (v : Option V) : NcsrFilterBatchItem G D × Bool :=
  let finished v := item.settle (some (paths.finishNcsrBatchItem item.m item.n item.lda item.sigma
    item.colDist g v mean), true)
  match v.filter paths.finiteSingularValues with
  | some v => finished v
  | none =>
    match paths.svdEconomy m n item.lda g with
    | none => item.settle (some (paths.groupCenterAdd m n item.lda g mean), false)
    | some v => finished v

def bucketLanes (batch : List (NcsrFilterBatchItem G D)) : List (NcsrFilterBatchItem G D × Bool) :=
  match batch with
  | [] => []
  | first :: _ =>
    let centred := batch.filterMap fun item => item.group.map fun g =>
      (item, paths.groupCenterSub first.m first.n item.lda g)
    match paths.svdEconomy8BatchU.run first.m (centred.map fun c => (c.1.lda, c.2.1)) with
    | none => centred.map fun c => c.1.finishLane paths first.m first.n c.2.1 c.2.2 none
    | some vs =>
      (centred.zip vs).map fun c => c.1.1.finishLane paths first.m first.n c.1.2.1 c.1.2.2 (some c.2)

end NcsrFilterBatchItem

def SvdPaths.ncsrFilterGroupBatch (items : List (NcsrFilterBatchItem G D)) :
    List (NcsrFilterBatchItem G D) × Nat :=
  laneBatch NcsrFilterBatchItem.less NcsrFilterBatchItem.same (·.eligible)
    (·.process paths.scalar) (NcsrFilterBatchItem.bucketLanes paths) (items.map (·.reset))

/-! A kernel with the laws is a special case. -/

end Paths

/-! ## What comes of an item of a batch -/

section Items

variable {α : Type*} {less same : α → α → Bool} {eligible : α → Bool} {f : α → α × Bool}
  {lanes : List α → List (α × Bool)} {R : α → α × Bool → Prop} {items : List α} {i : Nat} {a : α}

end Items

section Fallback

variable {G M V W D : Type*} {paths : SvdPaths G M V W D}

namespace WnnmShrinkBatchItem

variable (paths) in
/-- The group as it is decomposed, and the mean that was taken off. -/
def centred (item : WnnmShrinkBatchItem G W) (g : G) : G × Option M :=
  wnnmCenter paths.scalar item.m item.n item.lda item.residual g

/-- The item with a new group and weight. -/
def finished (item : WnnmShrinkBatchItem G W) (result : G × W) : WnnmShrinkBatchItem G W :=
  { item with
    group := some result.1
    adaptiveWeight := item.adaptiveWeight.map fun _ => result.2
    status := setStatus item.status 1 }

variable (paths) in
/-- What an admitted item with the group `g` becomes. -/
inductive Outcome (item : WnnmShrinkBatchItem G W) (g : G) : WnnmShrinkBatchItem G W → Prop
  | lanes {v : V} (hgave : paths.svdEconomy8BatchSv.Gave item.lda (item.centred paths g).1 v)
      (hfinite : paths.finiteSingularValues v = true) :
      Outcome item g (item.finished (paths.finishSv item.m item.n item.lda item.sigma item.residual
        item.adaptive (item.centred paths g).1 v (item.centred paths g).2))
  | scalar {v : V}
      (hsvd : paths.svdEconomy item.m item.n item.lda (item.centred paths g).1 = some v) :
      Outcome item g (item.finished (paths.finishWnnm item.m item.n item.lda item.sigma
        item.residual item.adaptive (item.centred paths g).1 v (item.centred paths g).2))
  | restored (hsvd : paths.svdEconomy item.m item.n item.lda (item.centred paths g).1 = none) :
      Outcome item g item.reset
  | refused (hsize : kSvdMaxM < item.m ∨ kSvdMaxN < item.n) : Outcome item g item.reset

variable {item : WnnmShrinkBatchItem G W} {l : List (WnnmShrinkBatchItem G W)} {g : G}

end WnnmShrinkBatchItem

namespace NcsrFilterBatchItem

variable (paths) in
/-- The group as it is decomposed, and the mean that was taken off. -/
def centred (item : NcsrFilterBatchItem G D) (g : G) : G × M :=
  paths.groupCenterSub item.m item.n item.lda g

/-- The item with a new group. -/
def finished (item : NcsrFilterBatchItem G D) (g : G) : NcsrFilterBatchItem G D :=
  { item with group := some g, status := setStatus item.status 1 }

variable (paths) in
/-- What an admitted item with the group `g` becomes. -/
inductive Outcome (item : NcsrFilterBatchItem G D) (g : G) : NcsrFilterBatchItem G D → Prop
  | lanes {v : V} (hgave : paths.svdEconomy8BatchU.Gave item.lda (item.centred paths g).1 v)
      (hfinite : paths.finiteSingularValues v = true) :
      Outcome item g (item.finished (paths.finishNcsrBatchItem item.m item.n item.lda item.sigma
        item.colDist (item.centred paths g).1 v (item.centred paths g).2))
  | retried {v : V}
      (hsvd : paths.svdEconomy item.m item.n item.lda (item.centred paths g).1 = some v) :
      Outcome item g (item.finished (paths.finishNcsrBatchItem item.m item.n item.lda item.sigma
        item.colDist (item.centred paths g).1 v (item.centred paths g).2))
  | single {v : V}
      (hsvd : paths.svdEconomy item.m item.n item.lda (item.centred paths g).1 = some v) :
      Outcome item g (item.finished (paths.finishNcsr item.m item.n item.lda item.sigma
        item.colDist (item.centred paths g).1 v (item.centred paths g).2))
  | restored (hsvd : paths.svdEconomy item.m item.n item.lda (item.centred paths g).1 = none) :
      Outcome item g item.reset
  | refused (hsize : kSvdMaxM < item.m ∨ kSvdMaxN < item.n ∨
      item.workFloats < ncsrFilterWorkFloats item.m item.n) : Outcome item g item.reset

variable {item : NcsrFilterBatchItem G D} {l : List (NcsrFilterBatchItem G D)} {g : G}

end NcsrFilterBatchItem

end Fallback

/-! ## Exact arithmetic -/

section Exact

variable {R D : Type*} [Field R] [LinearOrder R]

/-- Kernels whose centring and reconstructions are exact; `real` reads a `sigma`. The
decompositions are those of `paths`, whatever they are. -/
def SvdPaths.exact (sqrt : R → R) (real : F32 → R)
    (paths : SvdPaths (GroupCells R) (Nat → R) (Svd R) R D) :
    SvdPaths (GroupCells R) (Nat → R) (Svd R) R D :=
  { paths with
    groupCenterSub := SvdFinish.groupCenterSub
    groupCenterAdd := SvdFinish.groupCenterAdd
    finishWnnm := fun m n lda sigma => SvdFinish.finishWnnm sqrt m n lda (real sigma)
    finishSv := fun m n lda sigma => SvdFinish.finishSv sqrt m n lda (real sigma) }

end Exact

end NssFactory.Cpu

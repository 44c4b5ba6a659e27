import Mathlib.Logic.Function.Basic
import NssFactory.Lib.Loops

/-!
# The identity of a contribution

`frontend/contribution.hpp`: seven properties of a frame say which model wrote it and, on a fat
frame, which temporal layout. A frame starts with the properties of the frame it was made from,
so old tags of any kind may be there; `stampContribution` sets or deletes all seven.

`vaggregateProps` is the part of `vaggGetFrame` that reads and writes properties: the frames of
one model are accepted, and the result carries the model without a layout. Where the frames are
legacy ones there is no model to write, and the result keeps the tags of the source frame.
-/

namespace NssFactory

/-- A frame property: 64-bit integers, or values of another type, of which only the number is
read here. -/
inductive VSProperty
  | int (values : List Int)
  | other (count : Nat)
  deriving DecidableEq, Repr

/-- The properties of a frame by their names. -/
abbrev VSMap := String → Option VSProperty

namespace VSMap

/-- `mapSetInt` with `maReplace`: what was there before goes, whatever its type. -/
def setInt (props : VSMap) (key : String) (value : Int) : VSMap :=
  Function.update props key (some (.int [value]))

def deleteKey (props : VSMap) (key : String) : VSMap := Function.update props key none

/-- `mapGetInt` at index 0; `none` is its error. -/
def getInt (props : VSMap) (key : String) : Option Int :=
  match props key with
  | some (.int (value :: _)) => some value
  | _ => none

/-- `mapNumElements`: -1 where there is no such property. -/
def numElements (props : VSMap) (key : String) : Int :=
  match props key with
  | none => -1
  | some (.int values) => values.length
  | some (.other count) => count

end VSMap

def kSemanticVersion : Int := 2
def kContributionVersion : Int := 2
def kContributionNumDenSlices : Int := 1

inductive Model
  | BM3D | WNNM | MCWNNM | TWSC | NCSR | NLH | LSSC | NLM
  deriving DecidableEq, Repr

namespace Model

/-- The values of the enumeration. -/
def code : Model → Int
  | BM3D => 1
  | WNNM => 2
  | MCWNNM => 3
  | TWSC => 4
  | NCSR => 5
  | NLH => 6
  | LSSC => 7
  | NLM => 8

def all : List Model := [BM3D, WNNM, MCWNNM, TWSC, NCSR, NLH, LSSC, NLM]

/-- `static_cast<Model>` of one of the values. -/
def ofCode (model : Int) : Option Model := all.find? fun m => m.code == model

end Model

def modelSemanticVersion : Model → Int
  | .NLH => 7
  | .TWSC => 6
  | .NCSR => 3
  | .LSSC => 4
  | .BM3D => 3
  | _ => kSemanticVersion

namespace NoiseProfile

def bm3d : Int := 1

/-- The noise profile that goes with a model. -/
def of (model : Model) : Int := if model = .BM3D then bm3d else 0

end NoiseProfile

structure ContributionLayout where
  version : Int
  radius : Int
  center : Int
  sliceLayout : Int
  model : Int
  profile : Int
  deriving DecidableEq, Repr

/-- The tags that only a fat frame has. -/
def layoutTags : List String :=
  ["_NSSFatVersion", "_NSSFatRadius", "_NSSFatCenter", "_NSSFatLayout"]

/-- The other tags of a contribution, besides `_NSSFatVersion`. -/
def partialTags : List String :=
  ["_NSSFatRadius", "_NSSFatCenter", "_NSSFatLayout", "_NSSModel", "_NSSModelVersion",
    "_NSSNoiseProfile"]

/-- The seven tags. -/
def contributionTags : List String := "_NSSFatVersion" :: partialTags

def deleteLayout (props : VSMap) : VSMap := layoutTags.foldl VSMap.deleteKey props

def stampContribution (props : VSMap) (radius center : Int) (model : Model) : VSMap :=
  let props := props.setInt "_NSSModel" model.code
  let props := props.setInt "_NSSModelVersion" (modelSemanticVersion model)
  let props := props.setInt "_NSSNoiseProfile" (NoiseProfile.of model)
  if radius > 0 then
    let props := props.setInt "_NSSFatVersion" kContributionVersion
    let props := props.setInt "_NSSFatRadius" radius
    let props := props.setInt "_NSSFatCenter" center
    props.setInt "_NSSFatLayout" kContributionNumDenSlices
  else deleteLayout props

def contributionProperty (props : VSMap) (key ns : String) : Except String Int :=
  match props.getInt key with
  | none => .error (ns ++ ".VAggregate: missing or invalid contribution identity")
  | some value =>
    if value < 0 ∨ value > 2147483647 then
      .error (ns ++ ".VAggregate: missing or invalid contribution identity")
    else .ok value

/-- The tags of a frame that is not a legacy one. -/
def validateTags (props : VSMap) (radius center : Int) (ns : String) :
    Except String ContributionLayout := do
  let version ← contributionProperty props "_NSSFatVersion" ns
  let fatRadius ← contributionProperty props "_NSSFatRadius" ns
  let fatCenter ← contributionProperty props "_NSSFatCenter" ns
  let sliceLayout ← contributionProperty props "_NSSFatLayout" ns
  let model ← contributionProperty props "_NSSModel" ns
  let profile ← contributionProperty props "_NSSNoiseProfile" ns
  if version ≠ kContributionVersion ∨ fatRadius ≠ radius ∨ fatCenter ≠ center ∨
      sliceLayout ≠ kContributionNumDenSlices ∨ model < 1 ∨ model > 6 ∨
      profile ≠ (if model = Model.BM3D.code then NoiseProfile.bm3d else 0) then
    .error (ns ++ ".VAggregate: incompatible contribution identity")
  else
    let modelVersion ← contributionProperty props "_NSSModelVersion" ns
    if some modelVersion ≠ (Model.ofCode model).map modelSemanticVersion then
      .error (ns ++ ".VAggregate: incompatible contribution identity")
    else return ⟨version, fatRadius, fatCenter, sliceLayout, model, profile⟩

def validateContribution (props : VSMap) (radius center : Int) (allowLegacy : Bool)
    (ns : String) : Except String ContributionLayout :=
  if props.numElements "_NSSFatVersion" < 0 ∧ allowLegacy then
    if partialTags.any fun key => props.numElements key ≥ 0 then
      .error (ns ++ ".VAggregate: partial contribution identity")
    else .ok ⟨0, radius, center, kContributionNumDenSlices, 0, 0⟩
  else validateTags props radius center ns

/-- The model of the frames `(c, properties)` that `vaggGetFrame` fetches; -1 before the
first. -/
def contributorModel (radius : Int) (allowLegacy : Bool) (frames : List (Int × VSMap)) :
    Except String Int :=
  frames.foldlM (fun model frame => do
    let identity ← validateContribution frame.2 radius frame.1 allowLegacy "nss"
    if model ≥ 0 ∧ model ≠ identity.model then
      .error "nss.VAggregate: mixed contribution models"
    else return identity.model) (-1)

/-- The properties of frame `n` of an aggregate, made from `src`. Only a model above 0 is
stamped: legacy frames have model 0. -/
def vaggregateProps (radius : Int) (allowLegacy : Bool) (frames : List (Int × VSMap))
    (src : VSMap) (n : Int) : Except String VSMap := do
  let model ← contributorModel radius allowLegacy frames
  match Model.ofCode model with
  | some m => return deleteLayout (stampContribution src 0 n m)
  | none => return deleteLayout src

/-! ## Reading what was written -/

section Tags

variable {props : VSMap} {key ns : String} {v radius center : Int} {model : Model}

theorem VSMap.numElements_neg_iff : props.numElements key < 0 ↔ props key = none := by
  unfold VSMap.numElements
  cases props key with
  | none => simp
  | some value =>
    cases value with
    | int values => simp
    | other count => simp

theorem contributionProperty_ok :
    contributionProperty props key ns = .ok v ↔ props.getInt key = some v ∧ 0 ≤ v ∧ v ≤ 2147483647 := by
  unfold contributionProperty
  cases props.getInt key with
  | none => simp
  | some value =>
    by_cases hrange : value < 0 ∨ value > 2147483647
    · simp only [hrange, if_true, reduceCtorEq, Option.some.injEq, false_iff]
      omega
    · simp only [hrange, if_false, Except.ok.injEq, Option.some.injEq]
      omega

/-- The seven tags of a fat frame. -/
structure Tagged (props : VSMap) (layout : ContributionLayout) (modelVersion : Int) : Prop where
  version : props.getInt "_NSSFatVersion" = some layout.version
  radius : props.getInt "_NSSFatRadius" = some layout.radius
  center : props.getInt "_NSSFatCenter" = some layout.center
  sliceLayout : props.getInt "_NSSFatLayout" = some layout.sliceLayout
  model : props.getInt "_NSSModel" = some layout.model
  profile : props.getInt "_NSSNoiseProfile" = some layout.profile
  modelVersion : props.getInt "_NSSModelVersion" = some modelVersion

/-- The layout that a stamp describes. -/
def stampedLayout (radius center : Int) (model : Model) : ContributionLayout where
  version := kContributionVersion
  radius := radius
  center := center
  sliceLayout := kContributionNumDenSlices
  model := model.code
  profile := NoiseProfile.of model

theorem deleteLayout_tag (h : key ∈ layoutTags) : deleteLayout props key = none := by
  simp only [layoutTags, List.mem_cons, List.not_mem_nil, or_false] at h
  rcases h with rfl | rfl | rfl | rfl <;>
    simp [deleteLayout, layoutTags, VSMap.deleteKey]

theorem deleteLayout_other (h : key ∉ layoutTags) : deleteLayout props key = props key := by
  simp only [layoutTags, List.mem_cons, List.not_mem_nil, or_false, not_or] at h
  simp [deleteLayout, layoutTags, VSMap.deleteKey, h]

/-- A fat stamp writes all seven tags, whatever was there. -/
theorem stamp_tagged (h : 0 < radius) :
    Tagged (stampContribution props radius center model) (stampedLayout radius center model)
      (modelSemanticVersion model) := by
  unfold stampContribution
  rw [if_pos h]
  constructor <;> simp [VSMap.setInt, VSMap.getInt, stampedLayout]

/-- Any other stamp leaves no tag of a fat frame, and the model's tags. -/
theorem stamp_flat (h : radius ≤ 0) :
    (∀ key ∈ layoutTags, stampContribution props radius center model key = none) ∧
      stampContribution props radius center model "_NSSModel" = some (.int [model.code]) := by
  unfold stampContribution
  rw [if_neg (by omega)]
  refine ⟨fun key hkey => deleteLayout_tag hkey, ?_⟩
  rw [deleteLayout_other (by decide)]
  simp [VSMap.setInt]

end Tags

/-! ## What is accepted -/

section Accepted

variable {props : VSMap} {ns : String} {radius center modelVersion : Int} {allowLegacy : Bool}
  {model : Model} {layout : ContributionLayout}

theorem bind_ok {ε α β : Type} {x : Except ε α} {f : α → Except ε β} {b : β} :
    (x >>= f) = .ok b ↔ ∃ a, x = .ok a ∧ f a = .ok b := by
  cases x with
  | error e => simp [bind, Except.bind]
  | ok a => simp [bind, Except.bind]

/-- What the tags of a frame must say to be accepted. -/
structure Expected (layout : ContributionLayout) (modelVersion radius center : Int) : Prop where
  version : layout.version = kContributionVersion
  radius_eq : layout.radius = radius
  center_eq : layout.center = center
  sliceLayout : layout.sliceLayout = kContributionNumDenSlices
  model_mem : 1 ≤ layout.model ∧ layout.model ≤ 6
  profile : layout.profile = if layout.model = Model.BM3D.code then NoiseProfile.bm3d else 0
  modelVersion : some modelVersion = (Model.ofCode layout.model).map modelSemanticVersion
  radius_range : 0 ≤ radius ∧ radius ≤ 2147483647
  center_range : 0 ≤ center ∧ center ≤ 2147483647

theorem semanticVersion_range (model : Model) :
    0 ≤ modelSemanticVersion model ∧ modelSemanticVersion model ≤ 2147483647 := by
  cases model <;> decide

theorem validateTags_ok_iff : validateTags props radius center ns = .ok layout ↔
    ∃ modelVersion, Tagged props layout modelVersion ∧
      Expected layout modelVersion radius center := by
  unfold validateTags
  simp only [bind_ok, contributionProperty_ok]
  constructor
  · rintro ⟨version, ⟨hversion, -⟩, r, ⟨hr, hrange⟩, c, ⟨hc, hcrange⟩, slices, ⟨hslices, -⟩,
      model, ⟨hmodel, -⟩, profile, ⟨hprofile, -⟩, h⟩
    by_cases hbad : version ≠ kContributionVersion ∨ r ≠ radius ∨ c ≠ center ∨
        slices ≠ kContributionNumDenSlices ∨ model < 1 ∨ model > 6 ∨
        profile ≠ if model = Model.BM3D.code then NoiseProfile.bm3d else 0
    · rw [if_pos hbad] at h
      cases h
    · rw [if_neg hbad] at h
      simp only [not_or, ne_eq, not_not, not_lt] at hbad
      obtain ⟨rfl, rfl, rfl, rfl, hlo, hhi, rfl⟩ := hbad
      obtain ⟨mv, hmv, h⟩ := bind_ok.mp h
      by_cases hsame : some mv = (Model.ofCode model).map modelSemanticVersion
      · rw [if_neg (not_not.mpr hsame)] at h
        cases h
        exact ⟨mv, ⟨hversion, hr, hc, hslices, hmodel, hprofile, (contributionProperty_ok.mp hmv).1⟩,
          rfl, rfl, rfl, rfl, ⟨hlo, hhi⟩, rfl, hsame, hrange, hcrange⟩
      · rw [if_pos hsame] at h
        cases h
  · rintro ⟨mv, ht, he⟩
    obtain ⟨version, r, c, slices, model, profile⟩ := layout
    obtain ⟨rfl, rfl, rfl, rfl, hm, hp, hmv, hr, hc⟩ := he
    simp only at hm hp hmv hr hc
    have hprange : 0 ≤ profile ∧ profile ≤ 2147483647 := by
      rw [show profile = if model = Model.BM3D.code then NoiseProfile.bm3d else 0 from hp]
      split <;> decide
    obtain ⟨m, hofCode, rfl⟩ := Option.map_eq_some_iff.mp hmv.symm
    have hversion : 0 ≤ kContributionVersion ∧ kContributionVersion ≤ 2147483647 := by decide
    have hslices : 0 ≤ kContributionNumDenSlices ∧ kContributionNumDenSlices ≤ 2147483647 := by
      decide
    have hmodel : 0 ≤ model ∧ model ≤ 2147483647 := by omega
    refine ⟨_, ⟨ht.version, hversion⟩, _, ⟨ht.radius, hr⟩, _, ⟨ht.center, hc⟩, _,
      ⟨ht.sliceLayout, hslices⟩, _, ⟨ht.model, hmodel⟩, _, ⟨ht.profile, hprange⟩, ?_⟩
    have hgood : ¬(kContributionVersion ≠ kContributionVersion ∨ r ≠ r ∨ c ≠ c ∨
        kContributionNumDenSlices ≠ kContributionNumDenSlices ∨ model < 1 ∨ model > 6 ∨
        profile ≠ if model = Model.BM3D.code then NoiseProfile.bm3d else 0) := by
      simp only [ne_eq, not_true_eq_false, false_or, not_or, not_lt, not_not]
      exact ⟨hm.1, hm.2, hp⟩
    rw [if_neg hgood]
    refine bind_ok.mpr ⟨_, contributionProperty_ok.mpr ⟨ht.modelVersion, semanticVersion_range m⟩, ?_⟩
    rw [if_neg (by simp [hofCode])]
    rfl

/-- A frame is accepted as a legacy one, or by its tags. -/
theorem validate_ok_iff :
    validateContribution props radius center allowLegacy ns = .ok layout ↔
      (allowLegacy = true ∧ (∀ key ∈ contributionTags, props key = none) ∧
          layout = ⟨0, radius, center, kContributionNumDenSlices, 0, 0⟩) ∨
        ¬(props "_NSSFatVersion" = none ∧ allowLegacy = true) ∧
          ∃ modelVersion, Tagged props layout modelVersion ∧
            Expected layout modelVersion radius center := by
  have hany : (partialTags.any fun key => decide (props.numElements key ≥ 0)) = true ↔
      ¬∀ key ∈ partialTags, props key = none := by
    simp only [← VSMap.numElements_neg_iff, List.any_eq_true, decide_eq_true_eq]
    push Not
    rfl
  have htags : (∀ key ∈ contributionTags, props key = none) ↔
      props "_NSSFatVersion" = none ∧ ∀ key ∈ partialTags, props key = none :=
    List.forall_mem_cons
  unfold validateContribution
  simp only [VSMap.numElements_neg_iff, htags]
  by_cases hlegacy : props "_NSSFatVersion" = none ∧ allowLegacy = true
  · rw [if_pos hlegacy]
    by_cases hpartial : ∀ key ∈ partialTags, props key = none
    · rw [if_neg (by rw [hany]; exact not_not.mpr hpartial)]
      simp only [hlegacy, Except.ok.injEq]
      grind
    · rw [if_pos (hany.mpr hpartial)]
      simp [hlegacy, hpartial]
  · rw [if_neg hlegacy, validateTags_ok_iff]
    grind

theorem Tagged.unique {layout' : ContributionLayout} {modelVersion' : Int}
    (h : Tagged props layout modelVersion) (h' : Tagged props layout' modelVersion') :
    layout = layout' := by
  obtain ⟨version, r, c, slices, m, profile⟩ := layout
  obtain ⟨version', r', c', slices', m', profile'⟩ := layout'
  simp only [ContributionLayout.mk.injEq]
  exact ⟨Option.some.inj (h.version.symm.trans h'.version),
    Option.some.inj (h.radius.symm.trans h'.radius),
    Option.some.inj (h.center.symm.trans h'.center),
    Option.some.inj (h.sliceLayout.symm.trans h'.sliceLayout),
    Option.some.inj (h.model.symm.trans h'.model),
    Option.some.inj (h.profile.symm.trans h'.profile)⟩

/-- The stamp of a contribution model is what a validation at the same place expects. -/
theorem expected_stamp (hmodel : model.code ≤ 6) (hr : 0 ≤ radius ∧ radius ≤ 2147483647)
    (hc : 0 ≤ center ∧ center ≤ 2147483647) :
    Expected (stampedLayout radius center model) (modelSemanticVersion model) radius center where
  version := rfl
  radius_eq := rfl
  center_eq := rfl
  sliceLayout := rfl
  model_mem := by
    refine ⟨?_, hmodel⟩
    show 1 ≤ model.code
    cases model <;> decide
  profile := by cases model <;> rfl
  modelVersion := by cases model <;> rfl
  radius_range := hr
  center_range := hc

/-- A fat frame is accepted by what its stamp says, a flat one never. -/
theorem validate_stamp_iff (hmodel : model.code ≤ 6) (hr : radius ≤ 2147483647) (hc : 0 ≤ center)
    (hc' : center ≤ 2147483647) {radius' center' : Int} :
    validateContribution (stampContribution props radius center model) radius' center' allowLegacy
        ns = .ok layout ↔
      (0 < radius ∧ radius' = radius ∧ center' = center) ∧
        layout = stampedLayout radius center model := by
  rw [validate_ok_iff]
  by_cases hfat : 0 < radius
  · have ht : Tagged (stampContribution props radius center model)
        (stampedLayout radius center model) (modelSemanticVersion model) := stamp_tagged hfat
    have hpresent : stampContribution props radius center model "_NSSFatVersion" ≠ none := by
      intro hnone
      have hversion := ht.version
      simp [VSMap.getInt, hnone] at hversion
    constructor
    · rintro (⟨-, hnone, -⟩ | ⟨-, mv, htagged, he⟩)
      · exact absurd (hnone _ List.mem_cons_self) hpresent
      · obtain rfl := htagged.unique ht
        exact ⟨⟨hfat, he.radius_eq.symm, he.center_eq.symm⟩, rfl⟩
    · rintro ⟨⟨-, rfl, rfl⟩, rfl⟩
      exact .inr ⟨fun h => hpresent h.1, _, ht, expected_stamp hmodel ⟨hfat.le, hr⟩ ⟨hc, hc'⟩⟩
  · obtain ⟨hlayout, hcode⟩ := @stamp_flat props radius center model (not_lt.mp hfat)
    constructor
    · rintro (⟨-, hnone, -⟩ | ⟨-, mv, htagged, -⟩)
      · rw [hnone _ (by decide)] at hcode
        cases hcode
      · have hversion := htagged.version
        simp [VSMap.getInt, hlayout "_NSSFatVersion" (by decide)] at hversion
    · rintro ⟨⟨hpos, -⟩, -⟩
      exact absurd hpos hfat

theorem validate_model (h : validateContribution props radius center allowLegacy ns = .ok layout) :
    0 ≤ layout.model ∧ layout.model ≤ 6 := by
  rcases validate_ok_iff.mp h with ⟨-, -, rfl⟩ | ⟨-, _, -, he⟩
  · show (0 : Int) ≤ 0 ∧ (0 : Int) ≤ 6
    decide
  · have := he.model_mem
    omega

/-- Without a layout only the model's tags are left, and none of them may be there. -/
theorem validate_deleteLayout_iff :
    (∃ layout, validateContribution (deleteLayout props) radius center allowLegacy ns = .ok layout) ↔
      allowLegacy = true ∧ props "_NSSModel" = none ∧ props "_NSSModelVersion" = none ∧
        props "_NSSNoiseProfile" = none := by
  have hversion : deleteLayout props "_NSSFatVersion" = none := deleteLayout_tag (by decide)
  have hlayout : ∀ key ∈ layoutTags, deleteLayout props key = none := fun key => deleteLayout_tag
  have hother : ∀ key, key ∉ layoutTags → deleteLayout props key = props key :=
    fun key => deleteLayout_other
  have htags : (∀ key ∈ contributionTags, deleteLayout props key = none) ↔
      props "_NSSModel" = none ∧ props "_NSSModelVersion" = none ∧
        props "_NSSNoiseProfile" = none := by
    simp only [contributionTags, partialTags, List.forall_mem_cons]
    rw [hversion, hlayout _ (by decide), hlayout _ (by decide), hlayout _ (by decide),
      hother _ (by decide), hother _ (by decide), hother _ (by decide)]
    simp
  simp only [validate_ok_iff, htags]
  constructor
  · rintro ⟨_, ⟨hallow, hnone, -⟩ | ⟨-, _, ht, -⟩⟩
    · exact ⟨hallow, hnone⟩
    · have := ht.version
      simp [VSMap.getInt, hversion] at this
  · rintro ⟨hallow, hnone⟩
    exact ⟨_, .inl ⟨hallow, hnone, rfl⟩⟩

end Accepted

/-! ## Aggregates -/

theorem contributorModel_range {radius : Int} {allowLegacy : Bool} {frames : List (Int × VSMap)}
    {model : Int} (h : contributorModel radius allowLegacy frames = .ok model) :
    -1 ≤ model ∧ model ≤ 6 := by
  unfold contributorModel at h
  suffices ∀ start : Int, -1 ≤ start ∧ start ≤ 6 → frames.foldlM (fun model frame => do
      let identity ← validateContribution frame.2 radius frame.1 allowLegacy "nss"
      if model ≥ 0 ∧ model ≠ identity.model then
        (.error "nss.VAggregate: mixed contribution models" : Except String Int)
      else return identity.model) start = .ok model → -1 ≤ model ∧ model ≤ 6 from
    this (-1) (by decide) h
  clear h
  induction frames with
  | nil =>
    intro start hstart h
    cases h
    exact hstart
  | cons frame frames ih =>
    intro start hstart h
    rw [List.foldlM_cons] at h
    obtain ⟨mid, hmid, hrest⟩ := bind_ok.mp h
    obtain ⟨identity, hidentity, hmid⟩ := bind_ok.mp hmid
    have hmodel := validate_model hidentity
    split at hmid
    · cases hmid
    · cases hmid
      exact ih _ (by omega) hrest

/-- An aggregate of identified frames is rejected like every frame without a layout, an
aggregate of legacy ones is as legacy as its source frame. -/
theorem aggregate_accepted_iff {radius : Int} {allowLegacy : Bool} {frames : List (Int × VSMap)}
    {src out : VSMap} {n model : Int}
    (hmodel : contributorModel radius allowLegacy frames = .ok model)
    (hout : vaggregateProps radius allowLegacy frames src n = .ok out)
    {radius' center' : Int} {allowLegacy' : Bool} {ns : String} :
    (∃ layout, validateContribution out radius' center' allowLegacy' ns = .ok layout) ↔
      model ≤ 0 ∧ allowLegacy' = true ∧ src "_NSSModel" = none ∧ src "_NSSModelVersion" = none ∧
        src "_NSSNoiseProfile" = none := by
  obtain ⟨model', hmodel', hout⟩ := bind_ok.mp hout
  rw [hmodel] at hmodel'
  cases hmodel'
  obtain ⟨hlo, hhi⟩ := contributorModel_range hmodel
  by_cases hpos : 0 < model
  · obtain ⟨m, hm⟩ : ∃ m, Model.ofCode model = some m := by
      have : model = 1 ∨ model = 2 ∨ model = 3 ∨ model = 4 ∨ model = 5 ∨ model = 6 := by omega
      rcases this with rfl | rfl | rfl | rfl | rfl | rfl <;> exact ⟨_, rfl⟩
    rw [hm] at hout
    cases hout
    rw [validate_deleteLayout_iff, (stamp_flat (Int.le_refl 0)).2]
    simp [hpos]
  · have hnone : Model.ofCode model = none := by
      have : model = -1 ∨ model = 0 := by omega
      rcases this with rfl | rfl <;> rfl
    rw [hnone] at hout
    cases hout
    rw [validate_deleteLayout_iff]
    simp [not_lt.mp hpos]

/-- A stamp is accepted at the radius and center it was made with, where it is fat, and says the
model; a flat one is never accepted, and neither is an aggregate of identified frames. An
aggregate of legacy frames is accepted, as a legacy frame, where its source is. Whatever the
properties, a frame is accepted as legacy only where that is allowed and no tag is there. -/
theorem contributions_identified :
    (∀ (props : VSMap) (model : Model) (radius center radius' center' : Int) (allowLegacy : Bool)
        (ns : String), model.code ≤ 6 → 0 ≤ radius → radius ≤ 2147483647 → 0 ≤ center →
        center ≤ 2147483647 →
      ((∃ layout, validateContribution (stampContribution props radius center model) radius'
            center' allowLegacy ns = .ok layout) ↔
          0 < radius ∧ radius' = radius ∧ center' = center) ∧
        ∀ layout, validateContribution (stampContribution props radius center model) radius'
            center' allowLegacy ns = .ok layout →
          layout.model = model.code ∧ layout.radius = radius ∧ layout.center = center) ∧
      (∀ (props : VSMap) (radius center : Int) (allowLegacy : Bool) (ns : String)
          (layout : ContributionLayout),
        validateContribution props radius center allowLegacy ns = .ok layout →
          (layout.version = 0 ↔ allowLegacy = true ∧ ∀ key ∈ contributionTags, props key = none)) ∧
      ∀ (radius n model : Int) (allowLegacy : Bool) (frames : List (Int × VSMap))
          (src out : VSMap), contributorModel radius allowLegacy frames = .ok model →
        vaggregateProps radius allowLegacy frames src n = .ok out →
        ∀ (radius' center' : Int) (allowLegacy' : Bool) (ns : String),
          (∃ layout, validateContribution out radius' center' allowLegacy' ns = .ok layout) ↔
            model ≤ 0 ∧ allowLegacy' = true ∧ src "_NSSModel" = none ∧
              src "_NSSModelVersion" = none ∧ src "_NSSNoiseProfile" = none := by
  refine ⟨?_, ?_, ?_⟩
  · intro props model radius center radius' center' allowLegacy ns hmodel _ hr hc hc'
    simp only [validate_stamp_iff hmodel hr hc hc']
    refine ⟨⟨fun ⟨_, h, _⟩ => h, fun h => ⟨_, h, rfl⟩⟩, ?_⟩
    rintro _ ⟨-, rfl⟩
    exact ⟨rfl, rfl, rfl⟩
  · intro props radius center allowLegacy ns layout h
    rcases validate_ok_iff.mp h with ⟨hallow, hnone, rfl⟩ | ⟨htagged, mv, -, he⟩
    · exact ⟨fun _ => ⟨hallow, hnone⟩, fun _ => rfl⟩
    · have hversion := he.version
      constructor
      · intro hzero
        rw [hzero] at hversion
        cases hversion
      · rintro ⟨hallow, hnone⟩
        exact absurd ⟨hnone _ List.mem_cons_self, hallow⟩ htagged
  · intro radius n model allowLegacy frames src out hmodel hout radius' center' allowLegacy' ns
    exact aggregate_accepted_iff hmodel hout

/-- A frame with stale tags of another stamp, stamped as a fat frame of `NLH` and read back at
its place, and its aggregate. -/
theorem contributions_identified_stale :
    let stale : VSMap := stampContribution (fun _ => some (.other 3)) 7 2 .BM3D
    let fat : VSMap := stampContribution stale 1 4 .NLH
    (∃ layout, validateContribution fat 1 4 true "nss" = .ok layout) ∧
      ¬∃ layout, validateContribution (deleteLayout (stampContribution stale 0 4 .NLH)) 1 4 true
        "nss" = .ok layout := by
  intro stale fat
  refine ⟨((contributions_identified.1 stale .NLH 1 4 1 4 true "nss" (by decide) (by decide)
    (by decide) (by decide) (by decide)).1).mpr ⟨by decide, rfl, rfl⟩, fun h => ?_⟩
  have haggregate := contributions_identified.2.2 1 4 6 true [(4, fat)] stale
    (deleteLayout (stampContribution stale 0 4 .NLH)) rfl rfl 1 4 true "nss"
  exact absurd (haggregate.mp h).1 (by decide)

/-- Not every aggregate is rejected: one of legacy frames carries no tag, as its source. -/
theorem legacy_aggregate_accepted :
    ¬∀ (radius n : Int) (allowLegacy : Bool) (frames : List (Int × VSMap)) (src out : VSMap),
      vaggregateProps radius allowLegacy frames src n = .ok out →
      ∀ (radius' center' : Int) (allowLegacy' : Bool) (ns : String) (layout : ContributionLayout),
        validateContribution out radius' center' allowLegacy' ns ≠ .ok layout := by
  intro h
  exact h 1 0 true [(0, fun _ => none)] (fun _ => none) _ rfl 1 0 true "nss" _ rfl

end NssFactory

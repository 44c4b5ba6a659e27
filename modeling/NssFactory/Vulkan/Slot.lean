import NssFactory.Lib.Trace
import Mathlib.Logic.Function.Basic

/-!
# The execution slot

`Slot` of `vulkan/runtime/slot.cpp`: three stages with a command buffer each, one timeline, and
the frames that are kept until the work of the slot is done. Every call takes the results of the
Vulkan calls it makes, so that each of them may fail. What the device and the core see of a slot
is its `trace`.

`Sound` is what every call keeps, and `Allowed` what an event of a trace may follow: submissions
raise the timeline, and a frame goes only when every submission has been waited for. A slot whose
wait failed keeps its frames for good.
-/

namespace NssFactory.Vulkan

/-- A result of a Vulkan call. Errors are negative. -/
abbrev VkResult := Int

def vkSuccess : VkResult := 0

def vkTimeout : VkResult := 2

inductive Stage where
  | upload
  | compute
  | download
  deriving DecidableEq, Repr

/-- The order of `submit`. -/
def Stage.all : List Stage := [.upload, .compute, .download]

theorem Stage.mem_all (i : Stage) : i ∈ Stage.all := by
  cases i <;> simp [Stage.all]

inductive SlotState where
  | idle
  | recording
  | pending
  | broken
  deriving DecidableEq, Repr

/-- A stage of the frame. `waits`: the timelines of other slots. `done`: the value that its
submission signals, 0 before it. -/
structure StageCommands (S : Type*) where
  recording : Bool := false
  waits : List (S × Nat) := []
  done : Nat := 0

inductive SlotError where
  | unusable
  | beforeWait
  /-- a call failed -/
  | check (code : VkResult)
  /-- a wait failed -/
  | wait (code : VkResult)
  | badAlloc
  deriving DecidableEq, Repr

/-- What a slot is given by its device. `deferDownloads`: one copy queue serves both
directions. -/
structure SlotEnv (S : Type*) where
  queue : Stage → Nat
  timeline : S
  deferDownloads : Bool
  queryCount : Nat
  waitTimeoutMs : Nat
  resultName : VkResult → String

/-- The text of an exception; that of a failed call begins so and names the place. -/
def SlotError.what {S : Type*} (env : SlotEnv S) : SlotError → String
  | .unusable => "nss_vk: execution slot unusable after a failed wait"
  | .beforeWait => "nss_vk: Slot::commands before wait()"
  | .check code => "nss_vk: " ++ env.resultName code
  | .wait code =>
    if code = vkTimeout then
      "nss_vk: the device did not finish a frame within " ++ toString env.waitTimeoutMs ++
        " ms (NSS_VK_WAIT_TIMEOUT_MS)"
    else "nss_vk: waiting for a frame failed: " ++ env.resultName code
  | .badAlloc => "std::bad_alloc"

/-- A batch that a queue accepted. `after`: the value of the slot's own timeline it waits for.
`round`: the call of `submit` that it is of. -/
structure Submission (S : Type*) where
  round : Nat
  stage : Stage
  value : Nat
  after : Option Nat
  waits : List (S × Nat)

inductive SlotEvent (S F : Type*) where
  | retained (frame : F)
  | submitted (batch : Submission S)
  /-- the timeline has reached the value -/
  | waited (value : Nat)
  /-- a wait failed -/
  | broke
  | released (frame : F)
  /-- the pools and the timeline -/
  | destroyed

structure Slot (S F : Type*) where
  stages : Stage → StageCommands S
  value : Nat
  state : SlotState
  deferred : Bool
  submitCount : Nat
  poisoned : Bool
  retained : List F
  round : Nat
  trace : List (SlotEvent S F)

def Slot.start (S F : Type*) : Slot S F where
  stages := fun _ => {}
  value := 0
  state := .idle
  deferred := false
  submitCount := 0
  poisoned := false
  retained := []
  round := 0
  trace := []

/-- The results of what `submit_stage` calls. `reserved`: the list of semaphores was
allocated. -/
structure SubmitResult where
  ended : VkResult
  reserved : Bool
  queued : VkResult

/-- How a call ends, and the slot then. -/
abbrev Slot.Result (S F : Type*) := Except SlotError Unit × Slot S F

namespace Slot

variable {S F : Type*}

/-- The statements after one that may throw. -/
def Result.andThen (x : Result S F) (k : Slot S F → Result S F) : Result S F :=
  match x with
  | (.ok (), s) => k s
  | (.error e, s) => (.error e, s)

def setStage (s : Slot S F) (i : Stage) (c : StageCommands S) : Slot S F :=
  { s with stages := Function.update s.stages i c }

def emit (s : Slot S F) (e : SlotEvent S F) : Slot S F := { s with trace := s.trace ++ [e] }

/-- `reserved`: the list of the retained frames has room. -/
def retain (s : Slot S F) (f : F) (reserved : Bool) : Result S F :=
  if reserved then (.ok (), { s.emit (.retained f) with retained := s.retained ++ [f] })
  else (.error .badAlloc, s)

def releaseFrames (s : Slot S F) : Slot S F :=
  if s.state = .broken then s
  else { s with trace := s.trace ++ s.retained.map .released, retained := [] }

/-- `poisoned`: another slot poisoned the device. -/
def release (s : Slot S F) (poisoned : Bool) : Slot S F :=
  if s.state = .broken ∨ s.state = .pending ∨ s.poisoned ∨ poisoned then s
  else s.emit .destroyed

def fail (s : Slot S F) : Slot S F := { s.emit .broke with state := .broken, poisoned := true }

def waitTimeline (s : Slot S F) (result : VkResult) : Slot S F :=
  if result = vkSuccess then s.emit (.waited s.value) else s

def resetCommands (s : Slot S F) : Slot S F := { s with stages := fun _ => {} }

def commands (s : Slot S F) (i : Stage) (began : VkResult) : Result S F :=
  if s.state = .broken then (.error .unusable, s)
  else if s.state = .pending then (.error .beforeWait, s)
  else if (s.stages i).recording then (.ok (), { s with state := .recording })
  else if began < 0 then (.error (.check began), s)
  else (.ok (), { s.setStage i { s.stages i with recording := true } with state := .recording })

/-- Raise the wait for a semaphore that is there already. -/
def raiseWait [DecidableEq S] (semaphore : S) (value : Nat) :
    List (S × Nat) → Option (List (S × Nat))
  | [] => none
  | (x, v) :: rest =>
    if x = semaphore then some ((x, max v value) :: rest)
    else (raiseWait semaphore value rest).map ((x, v) :: ·)

/-- `none` is the null handle. `stored`: the list of waits has room. -/
def waitFor [DecidableEq S] (env : SlotEnv S) (s : Slot S F) (i : Stage) (semaphore : Option S)
    (value : Nat) (began : VkResult) (stored : Bool) : Result S F :=
  match semaphore with
  | none => (.ok (), s)
  | some sem =>
    if sem = env.timeline then (.ok (), s)
    else
      (s.commands i began).andThen fun s =>
        match raiseWait sem value (s.stages i).waits with
        | some waits => (.ok (), s.setStage i { s.stages i with waits := waits })
        | none =>
          if stored then
            (.ok (), s.setStage i { s.stages i with waits := (s.stages i).waits ++ [(sem, value)] })
          else (.error .badAlloc, s)

/-- The batch that `submit_stage` builds. -/
def batch (s : Slot S F) (i : Stage) : Submission S where
  round := s.round
  stage := i
  value := s.value + 1
  after := if s.value ≠ 0 then some s.value else none
  waits := (s.stages i).waits

def submitStage (s : Slot S F) (i : Stage) (r : SubmitResult) : Result S F :=
  if r.ended < 0 then (.error (.check r.ended), s)
  else
    let c := { s.stages i with recording := false }
    if !r.reserved then (.error .badAlloc, s.setStage i c)
    else if r.queued < 0 then (.error (.check r.queued), s.setStage i c)
    else
      (.ok (),
        { (s.setStage i { c with done := s.value + 1 }).emit (.submitted (s.batch i)) with
          value := s.value + 1
          submitCount := s.submitCount + 1 })

/-- The loop of `submit` from a stage on. `submitted`: a stage before it was submitted. -/
def submitStages (defer_ : Bool) (r : Stage → SubmitResult) :
    List Stage → Bool → Slot S F → Result S F
  | [], _, s => (.ok (), { s with deferred := defer_, state := .pending })
  | i :: rest, submitted, s =>
    if !(s.stages i).recording || (defer_ && i = .download) then
      submitStages defer_ r rest submitted s
    else
      match s.submitStage i (r i) with
      | (.ok (), s) => submitStages defer_ r rest true s
      | (.error e, s) => (.error e, { s with state := if submitted then .pending else .recording })

def defersDownload (env : SlotEnv S) (s : Slot S F) : Bool :=
  env.deferDownloads && (s.stages .download).recording &&
    ((s.stages .upload).recording || (s.stages .compute).recording)

def submit (env : SlotEnv S) (s : Slot S F) (r : Stage → SubmitResult) : Result S F :=
  if s.state = .broken then (.error .unusable, s)
  else if s.state ≠ .recording then (.ok (), s)
  else
    submitStages (s.defersDownload env) r Stage.all false
      { s with submitCount := 0, round := s.round + 1 }

def waitOrThrow (s : Slot S F) (result : VkResult) : Result S F :=
  if result = vkSuccess then (.ok (), s.waitTimeline result)
  else (.error (.wait result), (s.waitTimeline result).fail)

/-- The work of a pending frame, the deferred download with it. -/
def waitPending (s : Slot S F) (first : VkResult) (r : SubmitResult) (second : VkResult) :
    Result S F :=
  (s.waitOrThrow first).andThen fun s =>
    if s.deferred then
      (submitStage { s with deferred := false } .download r).andThen fun s => s.waitOrThrow second
    else (.ok (), s)

/-- `wait`; its timestamps are left out. -/
def wait (s : Slot S F) (first : VkResult) (r : SubmitResult) (second : VkResult) : Result S F :=
  if s.state = .broken then (.error .unusable, s)
  else
    (if s.state = .pending then s.waitPending first r second else (.ok (), s)).andThen fun s =>
      (.ok (), { s.resetCommands with state := .idle }.releaseFrames)

def settle (env : SlotEnv S) (s : Slot S F) (result : VkResult) : Slot S F :=
  if s.state = .broken then s
  else if s.state = .idle ∧ env.queryCount = 0 then s.releaseFrames
  else if s.state = .pending ∧ result ≠ vkSuccess then (s.waitTimeline result).fail
  else
    let s := if s.state = .pending then s.waitTimeline result else s
    { s.resetCommands with deferred := false, state := .idle }.releaseFrames

/-- `~Slot`. -/
def destroy (env : SlotEnv S) (s : Slot S F) (result : VkResult) (poisoned : Bool) : Slot S F :=
  (s.settle env result).releaseFrames.release poisoned

end Slot

/-- A call of the slot's owner, with the results of the calls it makes. -/
inductive SlotCall (S F : Type*) where
  | commands (stage : Stage) (began : VkResult)
  | waitFor (stage : Stage) (semaphore : Option S) (value : Nat) (began : VkResult) (stored : Bool)
  | retain (frame : F) (reserved : Bool)
  | submit (results : Stage → SubmitResult)
  | wait (first : VkResult) (download : SubmitResult) (second : VkResult)
  | settle (result : VkResult)

namespace Slot

variable {S F : Type*} [DecidableEq S]

def call (env : SlotEnv S) (s : Slot S F) : SlotCall S F → Slot S F
  | .commands i began => (s.commands i began).2
  | .waitFor i semaphore value began stored => (s.waitFor env i semaphore value began stored).2
  | .retain f reserved => (s.retain f reserved).2
  | .submit results => (s.submit env results).2
  | .wait first download second => (s.wait first download second).2
  | .settle result => s.settle env result

def run (env : SlotEnv S) (calls : List (SlotCall S F)) : Slot S F :=
  calls.foldl (call env) (start S F)

end Slot

/-! ## What a trace says -/

section Trace

variable {S F : Type*}

/-- The batches of a trace, in order. -/
def submissions (t : List (SlotEvent S F)) : List (Submission S) :=
  t.filterMap fun
    | .submitted b => some b
    | _ => none

def retains (t : List (SlotEvent S F)) : List F :=
  t.filterMap fun
    | .retained f => some f
    | _ => none

def releases (t : List (SlotEvent S F)) : List F :=
  t.filterMap fun
    | .released f => some f
    | _ => none

/-- Every batch has been waited for: the timeline has reached its value. -/
def Drained (t : List (SlotEvent S F)) : Prop :=
  ∀ b ∈ submissions t, ∃ v, .waited v ∈ t ∧ b.value ≤ v

/-- What an event may follow. -/
def Allowed (before : List (SlotEvent S F)) : SlotEvent S F → Prop
  | .submitted b =>
    .broke ∉ before ∧
      ∀ b' ∈ submissions before, b'.value < b.value ∧ (b'.round, b'.stage) ≠ (b.round, b.stage)
  | .released _ | .destroyed => .broke ∉ before ∧ Drained before
  | .retained _ | .waited _ | .broke => True

variable {t : List (SlotEvent S F)} {f : F} {fs : List F} {b : Submission S} {v : Nat}

@[simp] theorem submissions_append (t t' : List (SlotEvent S F)) :
    submissions (t ++ t') = submissions t ++ submissions t' := List.filterMap_append

@[simp] theorem retains_append (t t' : List (SlotEvent S F)) :
    retains (t ++ t') = retains t ++ retains t' := List.filterMap_append

@[simp] theorem releases_append (t t' : List (SlotEvent S F)) :
    releases (t ++ t') = releases t ++ releases t' := List.filterMap_append

@[simp] theorem submissions_released : submissions (fs.map (.released (S := S))) = [] := by
  simp [submissions, List.filterMap_eq_nil_iff]

@[simp] theorem retains_released : retains (fs.map (.released (S := S))) = [] := by
  simp [retains, List.filterMap_eq_nil_iff]

@[simp] theorem releases_released : releases (fs.map (.released (S := S))) = fs := by
  induction fs with
  | nil => rfl
  | cons f fs ih =>
    rw [releases] at ih
    simp [releases, ih]

theorem Drained.released (h : Drained t) : Drained (t ++ fs.map .released) := by
  intro b hb
  rw [submissions_append, submissions_released, List.append_nil] at hb
  obtain ⟨v, hv, hle⟩ := h b hb
  exact ⟨v, List.mem_append_left _ hv, hle⟩

theorem broke_notMem_released (h : .broke ∉ t) : .broke ∉ t ++ fs.map .released := by
  simp [h]

end Trace

namespace Slot

variable {S F : Type*} {s s' : Slot S F}

/-! ## The invariant -/

/-- What holds between any two Vulkan calls. -/
structure Core (s : Slot S F) : Prop where
  guarded : Guarded Allowed s.trace
  values : ∀ b ∈ submissions s.trace, b.value ≤ s.value ∧ b.round ≤ s.round
  broke : .broke ∈ s.trace ↔ s.state = .broken
  frames : (retains s.trace).Perm (releases s.trace ++ s.retained)

/-- What holds between two calls of the slot. -/
structure Sound (s : Slot S F) : Prop extends Core s where
  drained : s.state = .idle ∨ s.state = .recording → Drained s.trace
  clean : s.state = .idle → ∀ i, s.stages i = {}
  deferred : s.deferred = true → (s.state = .pending ∨ s.state = .broken) ∧
    ∀ b ∈ submissions s.trace, b.round = s.round → b.stage ≠ .download

/-- A slot that is ready for the next frame, and has nothing of the last one. -/
structure Settled (s : Slot S F) : Prop where
  state : s.state = .idle
  deferred : s.deferred = false
  stages : ∀ i, (s.stages i).recording = false ∧ (s.stages i).waits = [] ∧ (s.stages i).done = 0
  retained : s.retained = []
  frames : (retains s.trace).Perm (releases s.trace)
  drained : Drained s.trace

theorem sound_start : Sound (start S F) where
  guarded := guarded_nil
  values := nofun
  broke := by simp [start]
  frames := .refl _
  drained := fun _ => nofun
  clean := fun _ _ => rfl
  deferred := nofun

theorem Core.of_eq (h : Core s) (htrace : s'.trace = s.trace) (hvalue : s'.value = s.value)
    (hround : s.round ≤ s'.round) (hretained : s'.retained = s.retained)
    (hstate : s'.state = .broken ↔ s.state = .broken) : Core s' where
  guarded := htrace ▸ h.guarded
  values := fun b hb => by
    rw [htrace] at hb
    obtain ⟨hv, hr⟩ := h.values b hb
    exact ⟨hvalue ▸ hv, Nat.le_trans hr hround⟩
  broke := by rw [htrace, hstate, h.broke]
  frames := by rw [htrace, hretained]; exact h.frames

theorem Core.retain (h : Core s) (f : F) :
    Core { s.emit (.retained f) with retained := s.retained ++ [f] } where
  guarded := h.guarded.snoc trivial
  values := by simpa [emit, submissions] using h.values
  broke := by simpa [emit] using h.broke
  frames := by
    have hframes := h.frames.append_right [f]
    simpa [emit, retains, releases] using hframes

theorem Core.waited (h : Core s) : Core (s.emit (.waited s.value)) where
  guarded := h.guarded.snoc trivial
  values := by simpa [emit, submissions] using h.values
  broke := by simpa [emit] using h.broke
  frames := by simpa [emit, retains, releases] using h.frames

/-- The last value is the largest. -/
theorem Core.drained (h : Core s) : Drained (s.emit (.waited s.value)).trace := by
  intro b hb
  have hmem : b ∈ submissions s.trace := by simpa [emit, submissions] using hb
  exact ⟨s.value, by simp [emit], (h.values b hmem).1⟩

theorem Core.fail (h : Core s) : Core s.fail where
  guarded := h.guarded.snoc trivial
  values := by simpa [Slot.fail, emit, submissions] using h.values
  broke := by simp [Slot.fail, emit]
  frames := by simpa [Slot.fail, emit, retains, releases] using h.frames

theorem Core.releaseFrames (h : Core s) (hstate : s.state ≠ .broken) (hdrained : Drained s.trace) :
    Core { s with trace := s.trace ++ s.retained.map .released, retained := [] } where
  guarded := by
    apply h.guarded.append
    intro pre e post hsplit
    obtain ⟨fs, rest, -, rfl, hrest⟩ := List.map_eq_append_iff.mp hsplit
    obtain ⟨f, fs', -, rfl, -⟩ := List.map_eq_cons_iff.mp hrest
    exact ⟨broke_notMem_released (mt h.broke.mp hstate), hdrained.released⟩
  values := by simpa using h.values
  broke := by simpa using h.broke
  frames := by simpa using h.frames

/-- The slot after a queue has accepted the batch of a stage. -/
def accepted (s : Slot S F) (i : Stage) (stages : Stage → StageCommands S) : Slot S F :=
  { s.emit (.submitted (s.batch i)) with
    stages := stages
    value := s.value + 1
    submitCount := s.submitCount + 1 }

theorem submissions_accepted (i : Stage) (stages : Stage → StageCommands S) :
    submissions (s.accepted i stages).trace = submissions s.trace ++ [s.batch i] := by
  simp [accepted, emit, submissions]

/-- A batch that raises the timeline, of a stage that this `submit` has not submitted. -/
theorem Core.accepted {i : Stage} (h : Core s) (hstate : s.state ≠ .broken)
    (hnew : ∀ b ∈ submissions s.trace, b.round = s.round → b.stage ≠ i)
    (stages : Stage → StageCommands S) : Core (s.accepted i stages) where
  guarded := by
    apply h.guarded.snoc
    refine ⟨mt h.broke.mp hstate, fun b hb => ⟨Nat.lt_succ_of_le (h.values b hb).1, ?_⟩⟩
    intro hsame
    obtain ⟨hround, hstage⟩ := Prod.mk.inj hsame
    exact hnew b hb hround hstage
  values := by
    intro b hb
    rw [submissions_accepted] at hb
    rcases List.mem_append.mp hb with hb | hb
    · obtain ⟨hv, hr⟩ := h.values b hb
      exact ⟨Nat.le_succ_of_le hv, hr⟩
    · obtain rfl := List.mem_singleton.mp hb
      exact ⟨Nat.le_refl _, Nat.le_refl _⟩
  broke := by simpa [Slot.accepted, emit] using h.broke
  frames := by simpa [Slot.accepted, emit, retains, releases] using h.frames

/-! ## What the calls do -/

theorem andThen_cases (x : Result S F) (k : Slot S F → Result S F) :
    (∃ e s, x = (.error e, s) ∧ x.andThen k = (.error e, s)) ∨
      ∃ s, x = (.ok (), s) ∧ x.andThen k = k s := by
  obtain ⟨res, s⟩ := x
  cases res with
  | error e => exact .inl ⟨e, s, rfl, rfl⟩
  | ok _ => exact .inr ⟨s, rfl, rfl⟩

/-- `s'` is `s` after `commands`, and perhaps after what `wait_for` stores. -/
def Recorded (s s' : Slot S F) : Prop :=
  s' = s ∨ s.state ≠ .broken ∧ s.state ≠ .pending ∧
    ∃ stages, s' = { s with stages := stages, state := .recording }

theorem commands_recorded (s : Slot S F) (i : Stage) (began : VkResult) :
    Recorded s (s.commands i began).2 := by
  unfold commands
  split
  · exact .inl rfl
  · next hbroken =>
    split
    · exact .inl rfl
    · next hpending =>
      split
      · exact .inr ⟨hbroken, hpending, s.stages, rfl⟩
      · split
        · exact .inl rfl
        · exact .inr ⟨hbroken, hpending, _, rfl⟩

theorem Recorded.setStage (h : Recorded s s') (hstate : s'.state = .recording) (i : Stage)
    (c : StageCommands S) : Recorded s (s'.setStage i c) := by
  rcases h with rfl | ⟨hbroken, hpending, stages, rfl⟩
  · refine .inr ⟨by simp [hstate], by simp [hstate], Function.update s'.stages i c, ?_⟩
    simp only [Slot.setStage, ← hstate]
  · exact .inr ⟨hbroken, hpending, _, rfl⟩

theorem commands_recording {i : Stage} {began : VkResult}
    (h : s.commands i began = (.ok (), s')) : s'.state = .recording := by
  unfold commands at h
  split_ifs at h <;> cases h <;> rfl

theorem waitFor_recorded [DecidableEq S] (env : SlotEnv S) (s : Slot S F) (i : Stage)
    (semaphore : Option S) (value : Nat) (began : VkResult) (stored : Bool) :
    Recorded s (s.waitFor env i semaphore value began stored).2 := by
  unfold waitFor
  cases semaphore with
  | none => exact .inl rfl
  | some sem =>
    dsimp only
    split
    · exact .inl rfl
    · have hcommands := commands_recorded s i began
      rcases andThen_cases (s.commands i began) _ with ⟨e, s', hx, hy⟩ | ⟨s', hx, hy⟩
      · rw [hy]
        rw [hx] at hcommands
        exact hcommands
      · rw [hy]
        rw [hx] at hcommands
        have hstate := commands_recording hx
        split
        · exact hcommands.setStage hstate i _
        · split
          · exact hcommands.setStage hstate i _
          · exact hcommands

theorem submitStage_cases (s : Slot S F) (i : Stage) (r : SubmitResult) :
    (∃ e stages, s.submitStage i r = (.error e, { s with stages := stages })) ∨
      ∃ stages, s.submitStage i r = (.ok (), s.accepted i stages) := by
  unfold submitStage
  split
  · exact .inl ⟨_, s.stages, rfl⟩
  · dsimp only
    split
    · exact .inl ⟨_, _, rfl⟩
    · split
      · exact .inl ⟨_, _, rfl⟩
      · exact .inr ⟨_, rfl⟩

/-! ## Every call keeps the invariant -/

theorem Sound.recorded (h : Sound s) (hs : Recorded s s') : Sound s' := by
  rcases hs with rfl | ⟨hbroken, hpending, stages, rfl⟩
  · exact h
  · have hdrained : Drained s.trace := by
      apply h.drained
      cases hstate : s.state with
      | idle => exact .inl rfl
      | recording => exact .inr rfl
      | pending => exact absurd hstate hpending
      | broken => exact absurd hstate hbroken
    have hdeferred : s.deferred = true → False := fun hd =>
      (h.deferred hd).1.elim hpending hbroken
    have hcore : Core { s with stages := stages, state := .recording } :=
      h.toCore.of_eq rfl rfl (Nat.le_refl _) rfl (by simp [hbroken])
    exact
      { hcore with
        drained := fun _ => hdrained
        clean := nofun
        deferred := fun hd => (hdeferred hd).elim }

theorem Sound.retain (h : Sound s) (f : F) (reserved : Bool) : Sound (s.retain f reserved).2 := by
  unfold Slot.retain
  split
  · have htrace : submissions (s.trace ++ [SlotEvent.retained f]) = submissions s.trace := by
      simp [submissions]
    exact
      { h.toCore.retain f with
        drained := fun hstate b hb => by
          obtain ⟨v, hv, hle⟩ := h.drained hstate b (htrace ▸ hb)
          exact ⟨v, List.mem_append_left _ hv, hle⟩
        clean := h.clean
        deferred := fun hd => by
          obtain ⟨hstate, hnone⟩ := h.deferred hd
          exact ⟨hstate, fun b hb => hnone b (htrace ▸ hb)⟩ }
  · exact h

/-- A failed wait. -/
theorem Core.sound_fail (h : Core s)
    (hdeferred : s.deferred = true →
      ∀ b ∈ submissions s.trace, b.round = s.round → b.stage ≠ .download) : Sound s.fail :=
  { h.fail with
    drained := nofun
    clean := nofun
    deferred := fun hd => ⟨.inr rfl, fun b hb => hdeferred hd b (by
      simpa [Slot.fail, emit, submissions] using hb)⟩ }

/-- Nothing of the frame is pending: the slot becomes idle and lets the frames go. -/
theorem Core.settled (h : Core s) (hstate : s.state ≠ .broken) (hdrained : Drained s.trace)
    (hs' : s' = { s.resetCommands with deferred := false, state := .idle }.releaseFrames) :
    Sound s' ∧ Settled s' := by
  have hform : s' = { s.resetCommands with
      deferred := false
      state := .idle
      trace := s.trace ++ s.retained.map .released
      retained := [] } := by
    rw [hs', Slot.releaseFrames, if_neg (by simp)]
    rfl
  have hcore : Core s' := by
    rw [hform]
    exact (h.releaseFrames hstate hdrained).of_eq rfl rfl (Nat.le_refl _) rfl (by simp [hstate])
  subst hform
  have hframes : (retains (s.trace ++ s.retained.map .released)).Perm
      (releases (s.trace ++ s.retained.map .released)) := by
    simpa using hcore.frames
  exact ⟨⟨hcore, fun _ => hdrained.released, fun _ _ => rfl, nofun⟩,
    ⟨rfl, rfl, fun _ => ⟨rfl, rfl, rfl⟩, rfl, hframes, hdrained.released⟩⟩

/-- The loop of `submit`: what this call has submitted is of a stage before the rest, and the
slot is pending as soon as there is any. -/
theorem Core.submitStages (defer_ : Bool) (r : Stage → SubmitResult) (rest : List Stage)
    (submitted : Bool) (h : Core s) (hstate : s.state = .recording) (hdeferred : s.deferred = false)
    (hrest : rest.Nodup)
    (hround : ∀ b ∈ submissions s.trace, b.round = s.round →
      b.stage ∉ rest ∧ (defer_ = true → b.stage ≠ .download))
    (hdrained : submitted = false → Drained s.trace) :
    Sound (Slot.submitStages defer_ r rest submitted s).2 := by
  induction rest generalizing s submitted with
  | nil =>
    have hcore : Core { s with deferred := defer_, state := .pending } :=
      h.of_eq rfl rfl (Nat.le_refl _) rfl (by simp [hstate])
    exact ⟨hcore, nofun, nofun, fun hd => ⟨.inl rfl, fun b hb hr => (hround b hb hr).2 hd⟩⟩
  | cons i rest ih =>
    obtain ⟨hnotMem, hrest⟩ := List.nodup_cons.mp hrest
    rw [Slot.submitStages]
    split
    · apply ih submitted h hstate hdeferred hrest
      · intro b hb hr
        obtain ⟨hb', hdown⟩ := hround b hb hr
        exact ⟨List.not_mem_of_not_mem_cons hb', hdown⟩
      · exact hdrained
    · next hcond =>
      have hdownload : defer_ = true → i ≠ .download := by
        rintro hd rfl
        simp [hd] at hcond
      rcases submitStage_cases s i (r i) with ⟨e, stages, heq⟩ | ⟨stages, heq⟩
      · rw [heq]
        cases submitted with
        | true => exact ⟨h.of_eq rfl rfl (Nat.le_refl _) rfl (by simp [hstate]), nofun, nofun,
            fun hd => absurd hd (by simp [hdeferred])⟩
        | false => exact ⟨h.of_eq rfl rfl (Nat.le_refl _) rfl (by simp [hstate]),
            fun _ => hdrained rfl, nofun, fun hd => absurd hd (by simp [hdeferred])⟩
      · rw [heq]
        have hcore : Core (s.accepted i stages) :=
          h.accepted (by simp [hstate])
            (fun b hb hr hi => (hround b hb hr).1 (hi ▸ List.mem_cons_self)) stages
        apply ih true hcore hstate hdeferred hrest
        · intro b hb hr
          rw [submissions_accepted] at hb
          rcases List.mem_append.mp hb with hb | hb
          · obtain ⟨hb', hdown⟩ := hround b hb hr
            exact ⟨List.not_mem_of_not_mem_cons hb', hdown⟩
          · obtain rfl := List.mem_singleton.mp hb
            exact ⟨hnotMem, hdownload⟩
        · exact nofun

theorem Sound.submit (h : Sound s) (env : SlotEnv S) (r : Stage → SubmitResult) :
    Sound (s.submit env r).2 := by
  unfold Slot.submit
  split
  · exact h
  · split
    · exact h
    · next hstate =>
      have hrecording : s.state = .recording := not_not.mp hstate
      have hcore : Core { s with submitCount := 0, round := s.round + 1 } :=
        h.toCore.of_eq rfl rfl (Nat.le_succ _) rfl .rfl
      have hdeferred : s.deferred = false := by
        rw [Bool.eq_false_iff]
        intro hd
        rcases (h.deferred hd).1 with hs | hs <;> simp [hs] at hrecording
      apply hcore.submitStages _ r Stage.all false hrecording hdeferred (by decide)
      · -- no batch is of this call yet
        intro b hb hr
        exact absurd (h.values b hb).2 (by simp only at hr; omega)
      · exact fun _ => h.drained (.inr hrecording)

/-- What a wait without an exception leaves: the work is done. -/
structure Waited (s : Slot S F) : Prop extends Core s where
  state : s.state = .pending
  drained : Drained s.trace

theorem Core.waitOrThrow (h : Core s) (hstate : s.state = .pending) (result : VkResult) :
    (∃ e, s.waitOrThrow result = (.error e, s.fail)) ∨
      s.waitOrThrow result = (.ok (), s.emit (.waited s.value)) ∧
        Waited (s.emit (.waited s.value)) := by
  unfold Slot.waitOrThrow Slot.waitTimeline
  split
  · exact .inr ⟨rfl, h.waited, hstate, h.drained⟩
  · exact .inl ⟨_, rfl⟩

/-- The deferred download is submitted here, if at all: its flag is down before. -/
theorem Sound.waitPending (h : Sound s) (hstate : s.state = .pending) (first : VkResult)
    (r : SubmitResult) (second : VkResult) :
    (∃ e, (s.waitPending first r second).1 = .error e ∧ Sound (s.waitPending first r second).2) ∨
      (s.waitPending first r second).1 = .ok () ∧ Waited (s.waitPending first r second).2 ∧
        (s.waitPending first r second).2.deferred = false := by
  have hdeferred : s.deferred = true →
      ∀ b ∈ submissions s.trace, b.round = s.round → b.stage ≠ .download :=
    fun hd => (h.deferred hd).2
  unfold Slot.waitPending
  rcases h.toCore.waitOrThrow hstate first with ⟨e, heq⟩ | ⟨heq, hwaited⟩
  · rw [heq]
    exact .inl ⟨e, rfl, h.toCore.sound_fail hdeferred⟩
  · rw [heq]
    simp only [Result.andThen]
    split
    · next hd =>
      have hcore : Core { s.emit (.waited s.value) with deferred := false } :=
        hwaited.toCore.of_eq rfl rfl (Nat.le_refl _) rfl .rfl
      have hnone : ∀ b ∈ submissions (s.emit (.waited s.value)).trace, b.round = s.round →
          b.stage ≠ .download := by
        simpa [emit, submissions] using hdeferred hd
      rcases submitStage_cases { s.emit (.waited s.value) with deferred := false } .download r with
        ⟨e, stages, hsub⟩ | ⟨stages, hsub⟩
      · rw [hsub]
        refine .inl ⟨e, rfl, hcore.of_eq rfl rfl (Nat.le_refl _) rfl .rfl, ?_, ?_, nofun⟩
        · exact fun _ => hwaited.drained
        · intro hidle
          exact absurd (hstate.symm.trans hidle) nofun
      · rw [hsub]
        dsimp only
        have haccepted := hcore.accepted (by simp [emit, hstate]) hnone stages
        rcases haccepted.waitOrThrow hstate second with ⟨e, hlast⟩ | ⟨hlast, hwaited'⟩
        · rw [hlast]
          exact .inl ⟨e, rfl, haccepted.sound_fail nofun⟩
        · rw [hlast]
          exact .inr ⟨rfl, hwaited', rfl⟩
    · next hd => exact .inr ⟨rfl, hwaited, Bool.eq_false_iff.mpr hd⟩

theorem Sound.not_deferred (h : Sound s) (hpending : s.state ≠ .pending)
    (hbroken : s.state ≠ .broken) : s.deferred = false := by
  rw [Bool.eq_false_iff]
  exact fun hd => (h.deferred hd).1.elim hpending hbroken

/-- A slot with nothing pending has nothing to wait for. -/
theorem Sound.drained_of (h : Sound s) (hpending : s.state ≠ .pending)
    (hbroken : s.state ≠ .broken) : Drained s.trace := by
  apply h.drained
  cases hstate : s.state with
  | idle => exact .inl rfl
  | recording => exact .inr rfl
  | pending => exact absurd hstate hpending
  | broken => exact absurd hstate hbroken

theorem Sound.wait (h : Sound s) (first : VkResult) (r : SubmitResult) (second : VkResult) :
    Sound (s.wait first r second).2 ∧
      ((s.wait first r second).1 = .ok () → Settled (s.wait first r second).2) := by
  -- the flag is down when the slot becomes idle
  have hdone : ∀ s : Slot S F, Core s → s.state ≠ .broken → s.deferred = false → Drained s.trace →
      Sound { s.resetCommands with state := .idle }.releaseFrames ∧
        Settled { s.resetCommands with state := .idle }.releaseFrames := by
    intro s h hstate hdeferred hdrained
    exact h.settled hstate hdrained (by rw [← hdeferred]; rfl)
  unfold Slot.wait
  split
  · exact ⟨h, nofun⟩
  · next hbroken =>
    split
    · next hpending =>
      rcases andThen_cases (s.waitPending first r second) _ with ⟨e, s', hx, hy⟩ | ⟨s', hx, hy⟩
      · rw [hy]
        rcases h.waitPending hpending first r second with ⟨_, -, hsound⟩ | ⟨hok, -⟩
        · rw [hx] at hsound
          exact ⟨hsound, nofun⟩
        · rw [hx] at hok
          cases hok
      · rw [hy]
        rcases h.waitPending hpending first r second with ⟨_, herror, -⟩ | ⟨-, hwaited, hflag⟩
        · rw [hx] at herror
          cases herror
        · rw [hx] at hwaited hflag
          have hstate : s'.state ≠ .broken := fun hb => absurd (hwaited.state.symm.trans hb) nofun
          obtain ⟨hsound, hsettled⟩ := hdone s' hwaited.toCore hstate hflag hwaited.drained
          exact ⟨hsound, fun _ => hsettled⟩
    · next hpending =>
      obtain ⟨hsound, hsettled⟩ := hdone s h.toCore hbroken (h.not_deferred hpending hbroken)
        (h.drained_of hpending hbroken)
      exact ⟨hsound, fun _ => hsettled⟩

theorem Sound.settle (h : Sound s) (env : SlotEnv S) (result : VkResult) :
    Sound (s.settle env result) ∧
      ((s.settle env result).state ≠ .broken → Settled (s.settle env result)) := by
  unfold Slot.settle
  split
  · next hbroken => exact ⟨h, fun hstate => absurd hbroken hstate⟩
  · next hbroken =>
    split
    · next hidle =>
      -- the commands are reset already
      have hdrained := h.drained (.inl hidle.1)
      have hflag : s.deferred = false := h.not_deferred (by simp [hidle.1]) hbroken
      have hreset : s = { s.resetCommands with deferred := false, state := .idle } := by
        have hstages : s.stages = fun _ => {} := funext (h.clean hidle.1)
        rw [← hflag, ← hidle.1, resetCommands, ← hstages]
      obtain ⟨hsound, hsettled⟩ := h.toCore.settled hbroken hdrained (congrArg releaseFrames hreset)
      exact ⟨hsound, fun _ => hsettled⟩
    · split
      · next hfailed =>
        have hform : s.waitTimeline result = s := if_neg hfailed.2
        rw [hform]
        exact ⟨h.toCore.sound_fail fun hd => (h.deferred hd).2, fun hstate => absurd rfl hstate⟩
      · next hdone =>
        split
        · next hpending =>
          have hform : s.waitTimeline result = s.emit (.waited s.value) :=
            if_pos (not_not.mp fun hne => hdone ⟨hpending, hne⟩)
          rw [hform]
          obtain ⟨hsound, hsettled⟩ := h.toCore.waited.settled hbroken h.toCore.drained rfl
          exact ⟨hsound, fun _ => hsettled⟩
        · next hpending =>
          obtain ⟨hsound, hsettled⟩ :=
            h.toCore.settled hbroken (h.drained_of hpending hbroken) rfl
          exact ⟨hsound, fun _ => hsettled⟩

theorem Sound.submissions_increase (h : Sound s) :
    (submissions s.trace).Pairwise fun b b' =>
      b.value < b'.value ∧ (b.round, b.stage) ≠ (b'.round, b'.stage) := by
  apply h.guarded.pairwise
  intro pre e b hallowed he
  cases e <;> cases he
  exact hallowed.2

theorem Sound.destroy (h : Sound s) (env : SlotEnv S) (result : VkResult) (poisoned : Bool) :
    Guarded Allowed (s.destroy env result poisoned).trace ∧
      ((s.destroy env result poisoned).state = .broken ∨
        (retains (s.destroy env result poisoned).trace).Perm
          (releases (s.destroy env result poisoned).trace)) := by
  obtain ⟨hsound, hsettled⟩ := h.settle env result
  unfold Slot.destroy
  by_cases hbroken : (s.settle env result).state = .broken
  · have hform : ((s.settle env result).releaseFrames.release poisoned) = s.settle env result := by
      rw [releaseFrames, if_pos hbroken, release, if_pos (.inl hbroken)]
    rw [hform]
    exact ⟨hsound.guarded, .inl hbroken⟩
  · have hset := hsettled hbroken
    have hform : (s.settle env result).releaseFrames = s.settle env result := by
      rw [releaseFrames, if_neg hbroken, hset.retained, List.map_nil, List.append_nil,
        ← hset.retained]
    rw [hform]
    unfold release
    split
    · exact ⟨hsound.guarded, .inr hset.frames⟩
    · refine ⟨hsound.guarded.snoc ⟨mt hsound.broke.mp hbroken, hset.drained⟩, .inr ?_⟩
      simpa [emit, retains, releases] using hset.frames

/-! ## Runs -/

variable [DecidableEq S]

theorem Sound.call (h : Sound s) (env : SlotEnv S) (c : SlotCall S F) : Sound (s.call env c) := by
  cases c with
  | commands i began => exact h.recorded (commands_recorded s i began)
  | waitFor i semaphore value began stored =>
    exact h.recorded (waitFor_recorded env s i semaphore value began stored)
  | retain f reserved => exact h.retain f reserved
  | submit results => exact h.submit env results
  | wait first download second => exact (h.wait first download second).1
  | settle result => exact (h.settle env result).1

theorem Sound.run (env : SlotEnv S) (calls : List (SlotCall S F)) : Sound (run env calls) := by
  rw [Slot.run]
  induction calls using List.reverseRecOn with
  | nil => exact sound_start
  | append_singleton calls c ih =>
    rw [List.foldl_append]
    exact ih.call env c

/-- The slot over any calls with any results: the values of each queue increase, no stage is
submitted twice by one `submit`, nothing is submitted or released after a failed wait, a frame
goes after the work that was submitted, at most once, and all of them at the latest with the
slot unless a wait failed. -/
theorem lifecycle (env : SlotEnv S) (calls : List (SlotCall S F)) :
    (∀ queue, (((submissions (run env calls).trace).filter
        (env.queue ·.stage = queue)).map (·.value)).Pairwise (· < ·)) ∧
      ((submissions (run env calls).trace).map fun b => (b.round, b.stage)).Nodup ∧
      (∀ first download second, ((run env calls).wait first download second).1 = .ok () →
        Settled ((run env calls).wait first download second).2) ∧
      (∀ result, ((run env calls).settle env result).state ≠ .broken →
        Settled ((run env calls).settle env result)) ∧
      (∀ pre post, (run env calls).trace = pre ++ .broke :: post →
        submissions post = [] ∧ releases post = []) ∧
      ((run env calls).state = .broken ↔ .broke ∈ (run env calls).trace) ∧
      (∀ pre f post, (run env calls).trace = pre ++ .released f :: post → Drained pre) ∧
      (retains (run env calls).trace).Perm
        (releases (run env calls).trace ++ (run env calls).retained) ∧
      ∀ result poisoned,
        (∀ pre f post, ((run env calls).destroy env result poisoned).trace =
          pre ++ .released f :: post → Drained pre) ∧
        (((run env calls).destroy env result poisoned).state = .broken ∨
          (retains ((run env calls).destroy env result poisoned).trace).Perm
            (releases ((run env calls).destroy env result poisoned).trace)) := by
  have h := Sound.run env calls
  have hincrease := h.submissions_increase
  refine ⟨fun queue => ?_, ?_, fun first download second => (h.wait first download second).2,
    fun result => (h.settle env result).2, fun pre post hsplit => ⟨?_, ?_⟩, h.broke.symm,
    fun pre f post hsplit => (h.guarded pre _ post hsplit).2, h.frames, fun result poisoned => ?_⟩
  · apply List.Pairwise.map (R := fun b b' => b.value < b'.value) _ fun _ _ hlt => hlt
    exact (hincrease.imp And.left).filter _
  · apply List.Pairwise.map _ _ (hincrease.imp And.right)
    exact fun _ _ hne => hne
  · -- a batch is not accepted after a failed wait
    apply List.filterMap_eq_nil_iff.mpr
    intro e he
    cases e with
    | submitted b => exact (h.guarded.not_after hsplit he fun _ hallowed => hallowed.1).elim
    | _ => rfl
  · apply List.filterMap_eq_nil_iff.mpr
    intro e he
    cases e with
    | released f => exact (h.guarded.not_after hsplit he fun _ hallowed => hallowed.1).elim
    | _ => rfl
  · obtain ⟨hguarded, hframes⟩ := h.destroy env result poisoned
    exact ⟨fun pre f post hsplit => (hguarded pre _ post hsplit).2, hframes⟩

/-- A wait that times out: the frame stays, also when the slot is destroyed. -/
theorem lifecycle_leaks :
    ¬ ∀ (env : SlotEnv Nat) (calls : List (SlotCall Nat Nat)) (result : VkResult)
        (poisoned : Bool) (f : Nat),
      (releases ((run env calls).destroy env result poisoned).trace).count f =
        (retains ((run env calls).destroy env result poisoned).trace).count f := by
  intro h
  have hleak := h ⟨fun _ => 0, 0, false, 0, 30000, fun _ => ""⟩
    [.commands .upload vkSuccess, .retain 7 true, .submit fun _ => ⟨vkSuccess, true, vkSuccess⟩,
      .wait vkTimeout ⟨vkSuccess, true, vkSuccess⟩ vkSuccess]
    vkSuccess false 7
  exact absurd hleak (by decide)

end Slot

end NssFactory.Vulkan

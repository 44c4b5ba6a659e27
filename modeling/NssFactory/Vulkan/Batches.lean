import NssFactory.Lib.Queues
import NssFactory.Vulkan.Slot

/-!
# What a slot submits

The batches that a call of `Slot` adds to its trace, and the points they wait for. A slot's
timeline is a queue: each batch waits for the one before it. `Keeps` is what a call does that
only records, `Adds` what a call does that submits, and `submit_compute` says when the compute
stage is among the batches.
-/

namespace NssFactory.Vulkan

variable {S F : Type*}

/-- The points that a batch waits for, on the timeline of its slot and on others. -/
def Submission.points (slot : S) (b : Submission S) : List (Point S) :=
  b.after.toList.map (Point.mk slot) ++ b.waits.map fun (semaphore, value) => ⟨semaphore, value⟩

namespace Slot

variable {s s' s'' : Slot S F} {bs bs' : List (Submission S)}

/-- The batches that were submitted since. -/
def newBatches (s s' : Slot S F) : List (Submission S) :=
  (submissions s'.trace).drop (submissions s.trace).length

/-- Every wait is still there, for the same value or a later one. -/
def Raised (waits waits' : List (S × Nat)) : Prop :=
  ∀ x v, (x, v) ∈ waits → ∃ v', (x, v') ∈ waits' ∧ v ≤ v'

/-- What a call leaves that only records. -/
structure Keeps (s s' : Slot S F) : Prop where
  value : s'.value = s.value
  submissions : submissions s'.trace = submissions s.trace
  waits : ∀ i, Raised (s.stages i).waits (s'.stages i).waits

/-- A batch that is the next on the timeline. -/
structure Next (s : Slot S F) (b : Submission S) : Prop where
  value : s.value < b.value
  after : ∀ v, v ≤ s.value → 0 < v → ∃ a, b.after = some a ∧ v ≤ a

/-- The batches that a call adds. -/
structure Adds (s s' : Slot S F) (bs : List (Submission S)) : Prop where
  submissions : submissions s'.trace = submissions s.trace ++ bs
  value : s.value ≤ s'.value
  next : ∀ b ∈ bs, Next s b
  le : ∀ b ∈ bs, b.value ≤ s'.value

theorem Raised.refl (waits : List (S × Nat)) : Raised waits waits :=
  fun _ v h => ⟨v, h, Nat.le_refl v⟩

theorem Raised.trans {waits waits' waits'' : List (S × Nat)} (h : Raised waits waits')
    (h' : Raised waits' waits'') : Raised waits waits'' := by
  intro x v hx
  obtain ⟨v', hx', hle⟩ := h x v hx
  obtain ⟨v'', hx'', hle'⟩ := h' x v' hx'
  exact ⟨v'', hx'', Nat.le_trans hle hle'⟩

theorem Keeps.refl (s : Slot S F) : Keeps s s := ⟨rfl, rfl, fun _ => .refl _⟩

theorem Keeps.trans (h : Keeps s s') (h' : Keeps s' s'') : Keeps s s'' :=
  ⟨h'.value.trans h.value, h'.submissions.trans h.submissions,
    fun i => (h.waits i).trans (h'.waits i)⟩

theorem Adds.newBatches_eq (h : Adds s s' bs) : newBatches s s' = bs := by
  rw [newBatches, h.submissions, List.drop_left]

theorem Adds.append (h : Adds s s' bs) (h' : Adds s' s'' bs') : Adds s s'' (bs ++ bs') where
  submissions := by rw [h'.submissions, h.submissions, List.append_assoc]
  value := Nat.le_trans h.value h'.value
  next b hb := by
    rcases List.mem_append.mp hb with hb | hb
    · exact h.next b hb
    · obtain ⟨hvalue, hafter⟩ := h'.next b hb
      exact ⟨Nat.lt_of_le_of_lt h.value hvalue, fun v hv => hafter v (Nat.le_trans hv h.value)⟩
  le b hb := by
    rcases List.mem_append.mp hb with hb | hb
    · exact Nat.le_trans (h.le b hb) h'.value
    · exact h'.le b hb

/-- The trace goes on, but nothing is submitted. -/
theorem adds_nil (hsubmissions : submissions s'.trace = submissions s.trace)
    (hvalue : s'.value = s.value) : Adds s s' [] :=
  ⟨by rw [hsubmissions, List.append_nil], Nat.le_of_eq hvalue.symm, nofun, nofun⟩

/-! ## Calls that record -/

theorem raiseWait_some [DecidableEq S] {semaphore : S} {value : Nat} {waits waits' : List (S × Nat)}
    (h : raiseWait semaphore value waits = some waits') :
    Raised waits waits' ∧ ∃ v, (semaphore, v) ∈ waits' ∧ value ≤ v := by
  induction waits generalizing waits' with
  | nil => cases h
  | cons w waits ih =>
    obtain ⟨x, v⟩ := w
    rw [raiseWait] at h
    split at h
    · next hx =>
      subst hx
      obtain rfl := Option.some.inj h
      refine ⟨fun y u hy => ?_, max v value, List.mem_cons_self, Nat.le_max_right v value⟩
      rcases List.mem_cons.mp hy with heq | hy
      · cases heq
        exact ⟨max v value, List.mem_cons_self, Nat.le_max_left v value⟩
      · exact ⟨u, List.mem_cons_of_mem _ hy, Nat.le_refl u⟩
    · obtain ⟨rest, hrest, rfl⟩ := Option.map_eq_some_iff.mp h
      obtain ⟨hraised, u, hu, hle⟩ := ih hrest
      refine ⟨fun y u hy => ?_, u, List.mem_cons_of_mem _ hu, hle⟩
      rcases List.mem_cons.mp hy with heq | hy
      · cases heq
        exact ⟨v, List.mem_cons_self, Nat.le_refl v⟩
      · obtain ⟨u', hu', hle'⟩ := hraised y u hy
        exact ⟨u', List.mem_cons_of_mem _ hu', hle'⟩

theorem keeps_setStage {i : Stage} {c : StageCommands S} {state : SlotState}
    (h : Raised (s.stages i).waits c.waits) : Keeps s { s.setStage i c with state := state } where
  value := rfl
  submissions := rfl
  waits j := by
    simp only [setStage]
    by_cases hj : j = i
    · subst hj
      rw [Function.update_self]
      exact h
    · rw [Function.update_of_ne hj]
      exact .refl _

theorem commands_keeps (s : Slot S F) (i : Stage) (began : VkResult) :
    Keeps s (s.commands i began).2 := by
  unfold commands
  split
  · exact .refl s
  · split
    · exact .refl s
    · split
      · exact ⟨rfl, rfl, fun _ => .refl _⟩
      · split
        · exact .refl s
        · exact keeps_setStage (.refl _)

theorem retain_keeps (s : Slot S F) (f : F) (reserved : Bool) : Keeps s (s.retain f reserved).2 := by
  unfold retain
  split
  · exact ⟨rfl, by simp [emit, NssFactory.Vulkan.submissions], fun _ => .refl _⟩
  · exact .refl s

/-- A wait, which is there once it returns. -/
theorem waitFor_cases [DecidableEq S] (env : SlotEnv S) (s : Slot S F) (i : Stage)
    (semaphore : S) (value : Nat) (began : VkResult) (stored : Bool) :
    Keeps s (s.waitFor env i (some semaphore) value began stored).2 ∧
      ((s.waitFor env i (some semaphore) value began stored).1 = .ok () →
        semaphore = env.timeline ∨ ∃ v, (semaphore, v) ∈
          ((s.waitFor env i (some semaphore) value began stored).2.stages i).waits ∧ value ≤ v) := by
  unfold waitFor
  dsimp only
  split
  · next htimeline => exact ⟨.refl s, fun _ => .inl htimeline⟩
  · have hcommands := commands_keeps s i began
    rcases andThen_cases (s.commands i began) _ with ⟨e, s₁, hx, hy⟩ | ⟨s₁, hx, hy⟩
    · rw [hx] at hcommands
      rw [hy]
      exact ⟨hcommands, by rintro ⟨⟩⟩
    · rw [hx] at hcommands
      rw [hy]
      split
      · next waits hraise =>
        obtain ⟨hraised, v, hv, hle⟩ := raiseWait_some hraise
        refine ⟨hcommands.trans (keeps_setStage hraised), fun _ => .inr ⟨v, ?_, hle⟩⟩
        simpa [setStage] using hv
      · split
        · have hraised : Raised (s₁.stages i).waits
              ((s₁.stages i).waits ++ [(semaphore, value)]) := fun y u hy =>
            ⟨u, List.mem_append_left _ hy, Nat.le_refl u⟩
          refine ⟨hcommands.trans (keeps_setStage hraised), fun _ => .inr ⟨value, ?_, Nat.le_refl _⟩⟩
          simp [setStage]
        · exact ⟨hcommands, by rintro ⟨⟩⟩

/-! ## Calls that submit -/

theorem adds_accepted (s : Slot S F) (i : Stage) (stages : Stage → StageCommands S) :
    Adds s (s.accepted i stages) [s.batch i] where
  submissions := submissions_accepted i stages
  value := Nat.le_succ s.value
  next b hb := by
    obtain rfl := List.mem_singleton.mp hb
    refine ⟨Nat.lt_succ_self s.value, fun v hv hpos => ⟨s.value, ?_, hv⟩⟩
    exact if_pos (by omega)
  le b hb := by
    obtain rfl := List.mem_singleton.mp hb
    exact Nat.le_refl _

/-- A stage that is submitted, or not. The other stages stay as they are. -/
theorem submitStage_result (s : Slot S F) (i : Stage) (r : SubmitResult) :
    (∃ e stages, s.submitStage i r = (.error e, { s with stages := stages }) ∧
      (stages i).waits = (s.stages i).waits ∧ ∀ j, j ≠ i → stages j = s.stages j) ∨
    ∃ stages, s.submitStage i r = (.ok (), s.accepted i stages) ∧
      (stages i).waits = (s.stages i).waits ∧ (stages i).done = s.value + 1 ∧
        ∀ j, j ≠ i → stages j = s.stages j := by
  unfold submitStage
  split
  · exact .inl ⟨_, s.stages, rfl, rfl, fun _ _ => rfl⟩
  · dsimp only
    split
    · exact .inl ⟨_, _, rfl, by simp, fun j hj => Function.update_of_ne hj _ _⟩
    · split
      · exact .inl ⟨_, _, rfl, by simp, fun j hj => Function.update_of_ne hj _ _⟩
      · exact .inr ⟨_, rfl, by simp [setStage, emit], by simp [setStage, emit],
          fun j hj => Function.update_of_ne hj _ _⟩

/-- Whether stage `i` is among the batches. -/
def Submits (i : Stage) (s : Slot S F) (r : Result S F) (bs : List (Submission S)) : Prop :=
  (∀ b ∈ bs, b.stage ≠ i) ∧ (r.1 = .ok () → (s.stages i).recording = false) ∨
    ∃ pre b post, bs = pre ++ b :: post ∧ b.stage = i ∧ b.waits = (s.stages i).waits ∧
      (r.2.stages i).done = b.value ∧ (∀ b' ∈ pre, b'.stage ≠ i) ∧ ∀ b' ∈ post, b'.stage ≠ i

theorem submitStages_adds {i : Stage} (hi : i ≠ .download) (defer_ : Bool)
    (r : Stage → SubmitResult) (rest : List Stage) (hrest : rest.Nodup) (submitted : Bool)
    (s : Slot S F) : ∃ bs, Adds s (submitStages defer_ r rest submitted s).2 bs ∧
      (∀ b ∈ bs, b.stage ∈ rest) ∧
      (∀ j, j ∉ rest → (submitStages defer_ r rest submitted s).2.stages j = s.stages j) ∧
      (∀ j, ((submitStages defer_ r rest submitted s).2.stages j).waits = (s.stages j).waits) ∧
      (i ∈ rest → Submits i s (submitStages defer_ r rest submitted s) bs) := by
  induction rest generalizing s submitted with
  | nil => exact ⟨[], adds_nil rfl rfl, by simp, fun _ _ => rfl, fun _ => rfl, by simp⟩
  | cons j rest ih =>
    obtain ⟨hj, hrest⟩ := List.nodup_cons.mp hrest
    rw [submitStages]
    split
    · next hskip =>
      obtain ⟨bs, hadds, hstage, hsame, hwaits, hsubmits⟩ := ih hrest submitted s
      refine ⟨bs, hadds, fun b hb => List.mem_cons_of_mem _ (hstage b hb),
        fun k hk => hsame k (List.not_mem_of_not_mem_cons hk), hwaits, fun hmem => ?_⟩
      rcases List.mem_cons.mp hmem with rfl | hmem
      · have hoff : (s.stages i).recording = false := by simpa [hi] using hskip
        exact .inl ⟨fun b hb heq => hj (heq ▸ hstage b hb), fun _ => hoff⟩
      · exact hsubmits hmem
    · -- a stage that is tried changes no waits
      have hwaits : ∀ {stages : Stage → StageCommands S}, (stages j).waits = (s.stages j).waits →
          (∀ k, k ≠ j → stages k = s.stages k) → ∀ k, (stages k).waits = (s.stages k).waits := by
        intro stages hself hother k
        by_cases hk : k = j
        · rw [hk, hself]
        · rw [hother k hk]
      rcases submitStage_result s j (r j) with
        ⟨e, stages, heq, hself, hsame⟩ | ⟨stages, heq, hself, hdone, hsame⟩
      · rw [heq]
        refine ⟨[], adds_nil rfl rfl, by simp, fun k hk => ?_, hwaits hself hsame,
          fun _ => .inl ⟨by simp, by rintro ⟨⟩⟩⟩
        exact hsame k (List.ne_of_not_mem_cons hk)
      · rw [heq]
        obtain ⟨bs, hadds, hstage, hkept, hkeptWaits, hsubmits⟩ :=
          ih hrest true (s.accepted j stages)
        refine ⟨s.batch j :: bs, (adds_accepted s j stages).append hadds, fun b hb => ?_,
          fun k hk => ?_, fun k => (hkeptWaits k).trans (hwaits hself hsame k), fun hmem => ?_⟩
        · rcases List.mem_cons.mp hb with rfl | hb
          · exact List.mem_cons_self
          · exact List.mem_cons_of_mem _ (hstage b hb)
        · rw [hkept k (List.not_mem_of_not_mem_cons hk)]
          exact hsame k (List.ne_of_not_mem_cons hk)
        · rcases List.mem_cons.mp hmem with rfl | hmem
          · -- the stage itself: the rest does not submit it again
            refine .inr ⟨[], s.batch i, bs, rfl, rfl, rfl, ?_, by simp,
              fun b hb heq => hj (heq ▸ hstage b hb)⟩
            rw [hkept i hj]
            exact hdone
          · have hne : i ≠ j := fun heq => hj (heq ▸ hmem)
            have hstages : (s.accepted j stages).stages i = s.stages i := hsame i hne
            rcases hsubmits hmem with ⟨hnone, hoff⟩ | ⟨pre, b, post, rfl, hb, hwaits, hrest⟩
            · refine .inl ⟨fun b hb => ?_, fun hok => hstages ▸ hoff hok⟩
              rcases List.mem_cons.mp hb with rfl | hb
              · exact hne.symm
              · exact hnone b hb
            · obtain ⟨hdone', hpre, hpost⟩ := hrest
              refine .inr ⟨s.batch j :: pre, b, post, rfl, hb, hstages ▸ hwaits, hdone', fun b hb => ?_,
                hpost⟩
              rcases List.mem_cons.mp hb with rfl | hb
              · exact hne.symm
              · exact hpre b hb

/-- What `submit` adds, and whether the compute stage is of it. -/
theorem submit_adds (env : SlotEnv S) (s : Slot S F) (r : Stage → SubmitResult)
    (hstate : s.state = .recording) : ∃ bs, Adds s (s.submit env r).2 bs ∧
      (∀ i, ((s.submit env r).2.stages i).waits = (s.stages i).waits) ∧
      Submits .compute s (s.submit env r) bs := by
  unfold submit
  rw [if_neg (by simp [hstate]), if_neg (by simp [hstate])]
  obtain ⟨bs, hadds, -, -, hwaits, hsubmits⟩ := submitStages_adds (i := .compute) nofun
    (s.defersDownload env) r Stage.all (by decide) false
    { s with submitCount := 0, round := s.round + 1 }
  exact ⟨bs, ⟨hadds.submissions, hadds.value, fun b hb => ⟨(hadds.next b hb).value,
    (hadds.next b hb).after⟩, hadds.le⟩, hwaits, hsubmits (Stage.mem_all _)⟩

theorem waitOrThrow_adds (s : Slot S F) (result : VkResult) :
    Adds s (s.waitOrThrow result).2 [] := by
  unfold waitOrThrow waitTimeline
  split
  · exact adds_nil (by simp [emit, NssFactory.Vulkan.submissions]) rfl
  · exact adds_nil (by simp [fail, emit, NssFactory.Vulkan.submissions]) rfl

theorem releaseFrames_adds (s : Slot S F) : Adds s s.releaseFrames [] := by
  unfold releaseFrames
  split
  · exact adds_nil rfl rfl
  · exact adds_nil (by simp) rfl

/-- `wait` may submit the deferred download. -/
theorem wait_adds (s : Slot S F) (first : VkResult) (r : SubmitResult) (second : VkResult) :
    ∃ bs, Adds s (s.wait first r second).2 bs := by
  have hpending : ∃ bs, Adds s (s.waitPending first r second).2 bs := by
    have hfirst := waitOrThrow_adds s first
    unfold waitPending
    rcases andThen_cases (s.waitOrThrow first) _ with ⟨e, s₁, hx, hy⟩ | ⟨s₁, hx, hy⟩
    · rw [hy]
      rw [hx] at hfirst
      exact ⟨[], hfirst⟩
    · rw [hy]
      rw [hx] at hfirst
      split
      · rcases submitStage_result { s₁ with deferred := false } .download r with
          ⟨e, stages, heq, -⟩ | ⟨stages, heq, -⟩
        · rw [heq]
          exact ⟨_, hfirst.append (adds_nil rfl rfl)⟩
        · rw [heq]
          have hflag : Adds s₁ { s₁ with deferred := false } [] := adds_nil rfl rfl
          exact ⟨_, ((hfirst.append hflag).append (adds_accepted _ .download stages)).append
            (waitOrThrow_adds _ second)⟩
      · exact ⟨[], hfirst⟩
  have hdone : ∀ {s s' : Slot S F} {bs}, Adds s s' bs →
      Adds s { s'.resetCommands with state := .idle }.releaseFrames bs := by
    intro s s' bs h
    have hreset : Adds s' { s'.resetCommands with state := .idle } [] := adds_nil rfl rfl
    simpa using (h.append hreset).append (releaseFrames_adds _)
  unfold wait
  split
  · exact ⟨[], adds_nil rfl rfl⟩
  · split
    · obtain ⟨bs, hbs⟩ := hpending
      rcases andThen_cases (s.waitPending first r second) _ with ⟨e, s₁, hx, hy⟩ | ⟨s₁, hx, hy⟩
      · rw [hy]
        rw [hx] at hbs
        exact ⟨bs, hbs⟩
      · rw [hy]
        rw [hx] at hbs
        exact ⟨bs, hdone hbs⟩
    · exact ⟨[], hdone (adds_nil rfl rfl)⟩

theorem settle_adds (env : SlotEnv S) (s : Slot S F) (result : VkResult) :
    Adds s (s.settle env result) [] := by
  have hwait : Adds s (s.waitTimeline result) [] := by
    unfold waitTimeline
    split
    · exact adds_nil (by simp [emit, NssFactory.Vulkan.submissions]) rfl
    · exact adds_nil rfl rfl
  have hidle : ∀ {s' : Slot S F}, Adds s s' [] →
      Adds s { s'.resetCommands with deferred := false, state := .idle }.releaseFrames [] := by
    intro s' h
    have hreset : Adds s' { s'.resetCommands with deferred := false, state := .idle } [] :=
      adds_nil rfl rfl
    exact (h.append hreset).append (releaseFrames_adds _)
  unfold settle
  split
  · exact adds_nil rfl rfl
  · split
    · exact releaseFrames_adds s
    · split
      · have hfail : Adds (s.waitTimeline result) (s.waitTimeline result).fail [] :=
          adds_nil (by simp [fail, emit, NssFactory.Vulkan.submissions]) rfl
        exact hwait.append hfail
      · dsimp only
        split
        · exact hidle hwait
        · exact hidle (adds_nil rfl rfl)

/-- Every call adds the batches that follow on the timeline, if any. -/
theorem call_adds [DecidableEq S] (env : SlotEnv S) (s : Slot S F) (c : SlotCall S F) :
    ∃ bs, Adds s (s.call env c) bs := by
  have hkeeps : ∀ {s' : Slot S F}, Keeps s s' → ∃ bs, Adds s s' bs := fun h =>
    ⟨[], adds_nil h.submissions h.value⟩
  cases c with
  | commands i began => exact hkeeps (commands_keeps s i began)
  | waitFor i semaphore value began stored =>
    cases semaphore with
    | none => exact hkeeps (.refl s)
    | some semaphore => exact hkeeps (waitFor_cases env s i semaphore value began stored).1
  | retain f reserved => exact hkeeps (retain_keeps s f reserved)
  | submit results =>
    by_cases hstate : s.state = .recording
    · obtain ⟨bs, hadds, -⟩ := submit_adds env s results hstate
      exact ⟨bs, hadds⟩
    · have hsame : (s.submit env results).2 = s := by
        unfold submit
        split <;> rfl
      refine ⟨[], ?_⟩
      change Adds s (s.submit env results).2 []
      rw [hsame]
      exact adds_nil rfl rfl
  | wait first download second => exact wait_adds s first download second
  | settle result => exact ⟨[], settle_adds env s result⟩

/-- A call of a request that records. -/
def Records : SlotCall S F → Prop
  | .commands .. | .waitFor .. | .retain .. => True
  | .submit _ | .wait .. | .settle _ => False

instance (c : SlotCall S F) : Decidable (Records c) :=
  match c with
  | .commands .. | .waitFor .. | .retain .. => .isTrue trivial
  | .submit _ | .wait .. | .settle _ => .isFalse id

theorem call_keeps [DecidableEq S] {env : SlotEnv S} {c : SlotCall S F} (hc : Records c)
    (s : Slot S F) : Keeps s (s.call env c) := by
  cases c with
  | commands i began => exact commands_keeps s i began
  | waitFor i semaphore value began stored =>
    cases semaphore with
    | none => exact .refl s
    | some semaphore => exact (waitFor_cases env s i semaphore value began stored).1
  | retain f reserved => exact retain_keeps s f reserved
  | submit _ => exact hc.elim
  | wait => exact hc.elim
  | settle _ => exact hc.elim

end Slot

end NssFactory.Vulkan

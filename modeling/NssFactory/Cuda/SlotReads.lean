import NssFactory.Cuda.SlotPipeline

/-!
# What the reads of a CUDA LSSC slot find

Every read of a buffer finds what was written for its own request and plane; with the order of
`SlotPipeline` no execution has a hazard: `slotPipeline_ordered`.
-/

namespace NssFactory.Cuda.SlotPipeline

open Streams

/-! ## What a read finds -/

/-- What the item reads was last written for its own request and plane. -/
def Finds (m : Loc → Tag) : Call Lssc.Stream Event Loc Tag → Prop
  | .queue _ (.assign _ reads f) => ∀ l ∈ reads, m l = f []
  | _ => True

def Fed (m : Loc → Tag) : Calls → Prop
  | [] => True
  | c :: cs => Finds m c ∧ Fed (c.run m) cs

/-- From buffers that hold `t`, the calls read and leave `t`. -/
def Feeds (t : Tag) (W : List Loc) (cs : Calls) (W' : List Loc) : Prop :=
  ∀ m : Loc → Tag, (∀ l ∈ W, m l = t) → Fed m cs ∧ ∀ l ∈ W', sequential cs m l = t

section Reads

variable {t : Tag} {W W' W'' : List Loc} {cs cs' : Calls} {m : Loc → Tag} {s : Lssc.Stream}

theorem fed_append : Fed m (cs ++ cs') ↔ Fed m cs ∧ Fed (sequential cs m) cs' := by
  induction cs generalizing m with
  | nil => exact (true_and _).symm.to_iff
  | cons c cs ih =>
    simp only [List.cons_append, Fed, ih, and_assoc]
    rfl

theorem Fed.finds {c : Call Lssc.Stream Event Loc Tag} (h : Fed m (cs ++ c :: cs')) : Finds (sequential cs m) c :=
  (fed_append.mp h).2.1

theorem Feeds.append (h : Feeds t W cs W') (h' : Feeds t W' cs' W'') : Feeds t W (cs ++ cs') W'' := by
  intro m hm
  obtain ⟨hfed, hleft⟩ := h m hm
  obtain ⟨hfed', hleft'⟩ := h' _ hleft
  refine ⟨fed_append.mpr ⟨hfed, hfed'⟩, fun l hl => ?_⟩
  rw [sequential_append]
  exact hleft' l hl

theorem Feeds.weaken (h : Feeds t W cs W') {U : List Loc} (hU : U ⊆ W') : Feeds t W cs U := by
  intro m hm
  obtain ⟨hfed, hleft⟩ := h m hm
  exact ⟨hfed, fun l hl => hleft l (hU hl)⟩

theorem feeds_nil : Feeds t W [] W := fun _ hm => ⟨trivial, hm⟩

theorem feeds_quiet (h : ∀ c ∈ cs, ∀ l, c.Avoids l) : Feeds t W cs W := by
  intro m hm
  refine ⟨?_, fun l hl => ?_⟩
  · clear hm
    induction cs generalizing m with
    | nil => trivial
    | cons c cs ih =>
      have hc := h c List.mem_cons_self
      have hrun : c.run m = m := by
        cases c with
        | queue s w => exact funext fun l => Work.run_of_not_mem (hc l) m
        | record | wait | syncEvent | syncStream => rfl
      refine ⟨?_, hrun.symm ▸ ih (fun c' hc' => h c' (List.mem_cons_of_mem _ hc')) m⟩
      cases c with
      | queue s w =>
        cases w with
        | assign l reads f => exact absurd List.mem_cons_self (hc l)
        | signal v => trivial
      | record | wait | syncEvent | syncStream => trivial
  · rw [sequential_of_avoids fun c hc => h c hc l]
    exact hm l hl

theorem feeds_launch {writes reads : List Loc} (h : reads ⊆ W) :
    Feeds t W (launch s t writes reads) (writes ++ W) := by
  induction writes generalizing W with
  | nil => exact feeds_nil
  | cons l writes ih =>
    intro m hm
    have hset : ∀ l' ∈ l :: W, Function.update m l t l' = t := by
      intro l' hl'
      by_cases heq : l' = l
      · rw [heq, Function.update_self]
      · rw [Function.update_of_ne heq]
        exact hm l' ((List.mem_cons.mp hl').resolve_left heq)
    obtain ⟨hfed, hleft⟩ := ih (fun l' hl' => List.mem_cons_of_mem _ (h hl')) _ hset
    refine ⟨⟨fun l' hl' => hm l' (h hl'), hfed⟩, fun l' hl' => hleft l' ?_⟩
    simp only [List.cons_append, List.mem_cons, List.mem_append] at hl' ⊢
    tauto

theorem feeds_fetch {l : Loc} (h : l ∈ W) : Feeds t W [fetch s t l] W := by
  intro m hm
  have hfinds : Finds m (fetch s t l) := by simpa [Finds, fetch] using hm l h
  refine ⟨⟨hfinds, trivial⟩, fun l' hl' => ?_⟩
  change Function.update m l t l' = t
  by_cases heq : l' = l
  · rw [heq, Function.update_self]
  · rw [Function.update_of_ne heq]
    exact hm l' hl'

theorem Feeds.flatMap {xs : List Nat} {f : Nat → Calls} (h : ∀ x, Feeds t W (f x) W) : Feeds t W (xs.flatMap f) W := by
  induction xs with
  | nil => exact feeds_nil
  | cons x xs ih => exact (h x).append ih

end Reads

section Fed

variable {d : Plan} {e : Lease} {plane b m np : Nat} {s : Slot} {t : Tag} {W : List Loc}

theorem dictionary_feeds :
    Feeds t [.patches b, .input b] (dictionary b t m np)
    [.gram b, .transpose b, .invNorm b, .dict b, .patches b, .input b] := by
  have hatoms : ∀ first atoms, Feeds t [.dict b, .patches b, .input b]
      (lsscLcgSources b t first atoms ++ lsscPatchAtoms b t first atoms) [.dict b, .patches b, .input b] := by
    intro first atoms
    unfold lsscLcgSources lsscPatchAtoms
    split
    · exact (feeds_nil.append (feeds_launch (by simp))).weaken (by simp)
    · exact ((feeds_launch (by simp)).append (feeds_launch (by simp))).weaken (by simp)
  have hksvd : Feeds t [.dict b, .patches b, .input b] (if 2 ≤ np then lsscKsvd b t else [])
      [.dict b, .patches b, .input b] := by
    split
    · exact ((((((feeds_launch (by simp)).append (feeds_launch (by simp))).append (feeds_launch (by simp))).append
        (feeds_launch (by simp))).append (feeds_launch (by simp))).append (feeds_launch (by simp))).weaken (by simp)
    · exact feeds_nil
  have hfirst : Feeds t [.patches b, .input b] (launch (.side b) t [.dict b] [])
      [.dict b, .patches b, .input b] := feeds_launch (by simp)
  unfold dictionary
  dsimp only
  rw [List.append_assoc (launch _ _ _ _)]
  exact ((hfirst.append (hatoms _ _)).append hksvd).append (feeds_launch (by simp))

theorem lsscCode_feeds : Feeds t [.gram b, .transpose b, .invNorm b, .dict b, .patches b, .input b] (lsscCode b t np)
    [.values, .patchMeta, .input b] := by
  have hcenter : Feeds t [.gram b, .transpose b, .invNorm b, .dict b, .patches b, .input b]
      (launch .stream t [.values, .patchMeta, .mean, .yy, .flags] [.patches b] ++ launch .stream t [.counters] [])
      [.counters, .values, .patchMeta, .mean, .yy, .flags, .gram b, .transpose b, .invNorm b, .dict b, .patches b,
        .input b] :=
    (feeds_launch (by simp)).append (feeds_launch (by simp))
  refine (hcenter.append (Feeds.flatMap fun _ => ?_)).weaken (by simp)
  exact ((feeds_launch (by simp)).append (feeds_launch (by simp))).weaken (by simp)

theorem aggregate_feeds : Feeds t [.values, .patchMeta, .input b] (aggregate t) [.num, .den, .input b] :=
  ((((feeds_launch (by simp)).append (feeds_launch (by simp))).append (feeds_launch (by simp))).append
    (feeds_launch (by simp))).weaken (by simp)

theorem feeds_waits {st st' : Lssc.Stream} {ev ev' : Event} :
    Feeds t W ([.wait st ev, .wait st' ev'] : Calls) W := feeds_quiet (by simp [Call.Avoids])

theorem feeds_signal {st st' : Lssc.Stream} {ev ev' : Event} :
    Feeds t W ([.record ev st, .wait st' ev'] : Calls) W := feeds_quiet (by simp [Call.Avoids])

theorem feeds_wait {st : Lssc.Stream} {ev : Event} : Feeds t W ([.wait st ev] : Calls) W :=
  feeds_quiet (by simp [Call.Avoids])

theorem feeds_record {st : Lssc.Stream} {ev : Event} : Feeds t W ([.record ev st] : Calls) W :=
  feeds_quiet (by simp [Call.Avoids])

theorem denoisePlane_feeds : Feeds t [.input b] (denoisePlane b t m np) [.out] := by
  have hpack : Feeds t [.input b] (lsscPack b t) [.patches b, .input b] := feeds_launch (by simp)
  have hfinish : Feeds t [.num, .den, .input b] (lsscFinish b t) [.out] := (feeds_launch (by simp)).weaken (by simp)
  exact (((((((((feeds_waits.append hpack).append feeds_signal).append dictionary_feeds).append feeds_signal).append
    lsscCode_feeds).append aggregate_feeds).append feeds_wait).append hfinish).append feeds_record)

theorem quiet_of_spares {cs : Calls} (h : ∀ l, ∀ c ∈ cs, c.Spares l Set.univ) : Feeds t W cs W :=
  feeds_quiet fun c hc l => (h l c hc).avoids

/-- The plane is uploaded from its region. -/
def staged (d : Plan) (e : Lease) (plane : Nat) : Bool := !d.filter.slotGpu && !e.request.directIn plane

/-- The plane is downloaded to its region. -/
def kept (d : Plan) (e : Lease) (plane : Nat) : Bool := !d.filter.slotGpu && !e.request.directOut plane

theorem upload_feeds (h : staged d e plane → region d e plane ∈ W) :
    Feeds (e.id, plane) W (upload d e plane b s).1 [.input b] := by
  unfold upload
  by_cases hgpu : d.filter.slotGpu
  · rw [if_pos hgpu]
    refine Feeds.append ?_ ((feeds_launch (List.nil_subset W)).weaken (by simp))
    exact (quiet_of_spares fun l => GpuStream.waitInput_spares).append
      (quiet_of_spares fun l => GpuStream.mapPlane_spares)
  · rw [if_neg hgpu]
    split
    · exact (feeds_launch (List.nil_subset W)).weaken (by simp)
    · next hdirect =>
      refine (feeds_launch (W := W) ?_).weaken (by simp)
      simpa using h (by simp [staged, hgpu, hdirect])

theorem download_feeds :
    Feeds (e.id, plane) [.out] (download d e plane s).1 (if kept d e plane then [region d e plane] else []) := by
  unfold download
  by_cases hgpu : d.filter.slotGpu
  · have hkept : kept d e plane = false := by simp [kept, hgpu]
    rw [if_pos hgpu, hkept]
    exact (((quiet_of_spares fun l => GpuStream.mapPlane_spares).append
      (feeds_fetch (List.mem_singleton_self _))).append
      (quiet_of_spares fun l => GpuStream.publish_spares)).weaken (List.nil_subset _)
  · rw [if_neg hgpu]
    cases hdirect : e.request.directOut plane with
    | true =>
      have hkept : kept d e plane = false := by simp [kept, hdirect]
      rw [if_pos rfl, hkept]
      exact (feeds_fetch (List.mem_singleton_self _)).weaken (List.nil_subset _)
    | false =>
      have hkept : kept d e plane = true := by simp [kept, hdirect, hgpu]
      rw [if_neg Bool.false_ne_true, hkept, if_pos rfl]
      exact (feeds_launch (List.Subset.refl _)).weaken (by simp)

theorem stagePlane_feeds : Feeds (e.id, plane) [] (stagePlane d e plane) [region d e plane] := by
  intro m _
  refine ⟨⟨nofun, trivial, trivial⟩, fun l hl => ?_⟩
  rw [List.mem_singleton.mp hl]
  exact Function.update_self _ _ _

theorem finishDownload_feeds :
    Feeds (e.id, plane) [region d e plane] (finishDownload d e plane) [region d e plane] := by
  have hsync : Feeds (e.id, plane) [region d e plane] ([.syncStream (.host e.id)] : Calls) [region d e plane] :=
    quiet_of_spares (by simp [Call.Spares])
  exact (feeds_fetch (List.mem_singleton_self _)).append hsync

/-- A plane reads its own region only. -/
theorem filterPlane_feeds (hgpu : d.filter.slotGpu = d.filter.gpu) :
    Feeds (e.id, plane) (if d.filter.whole && staged d e plane then [region d e plane] else [])
      (filterPlane d e plane s).1
      (if d.filter.whole && kept d e plane then [region d e plane] else []) := by
  have hstage : ∃ W, (staged d e plane → region d e plane ∈ W) ∧
      Feeds (e.id, plane) (if d.filter.whole && staged d e plane then [region d e plane] else [])
        (stagedPlane d e plane) W := by
    unfold stagedPlane staged
    rw [hgpu]
    cases d.filter.whole with
    | true => exact ⟨_, fun h => by simpa using h, feeds_nil⟩
    | false =>
      rw [Bool.not_false, Bool.true_and, Bool.false_and, if_neg Bool.false_ne_true]
      cases !d.filter.gpu && !e.request.directIn plane with
      | true => exact ⟨_, fun _ => List.mem_singleton_self _, stagePlane_feeds⟩
      | false => exact ⟨_, nofun, feeds_nil⟩
  obtain ⟨W, hW, hstage⟩ := hstage
  have hupload : ∀ s', Feeds (e.id, plane) W ([.wait .load (.coded s.turn)] ++ (upload d e plane s.turn s').1 ++
      [.record (.uploaded s.turn) .load]) [.input s.turn] := fun s' =>
    (feeds_wait.append (upload_feeds hW)).append feeds_record
  have hdownload : ∀ s', Feeds (e.id, plane) [.out] ((if d.filter.whole then [.wait .copy (.coded s.turn)] else []) ++
      (download d e plane s').1) (if kept d e plane then [region d e plane] else []) := by
    intro s'
    refine Feeds.append ?_ download_feeds
    split
    · exact feeds_wait
    · exact feeds_nil
  have hsettle : Feeds (e.id, plane) (if kept d e plane then [region d e plane] else []) (settlePlane d e plane)
      (if d.filter.whole && kept d e plane then [region d e plane] else []) := by
    unfold settlePlane
    cases d.filter.whole with
    | true =>
      rw [if_pos rfl, Bool.true_and]
      exact feeds_record
    | false =>
      rw [if_neg Bool.false_ne_true, Bool.false_and, if_neg Bool.false_ne_true]
      have hsync : ∀ W, Feeds (e.id, plane) W ([.syncStream .stream] : Calls) W := fun W =>
        feeds_quiet (by simp [Call.Avoids])
      have hfinish : Feeds (e.id, plane) (if kept d e plane then [region d e plane] else [])
          (if kept d e plane then finishDownload d e plane else []) [] := by
        split
        · exact finishDownload_feeds.weaken (List.nil_subset _)
        · exact feeds_nil
      exact (hsync _).append hfinish
  exact (((hstage.append (hupload _)).append denoisePlane_feeds).append (hdownload _)).append hsettle

end Fed

/-! ### Frames -/

section FedFrame

variable {d : Plan} {e : Lease} {s : Slot} {planes : List Nat} {m : Loc → Tag}

theorem filterPlane_avoids {g reg p : Nat} (hne : Loc.staging g reg ≠ region d e p) :
    ∀ c ∈ (filterPlane d e p s).1, c.Avoids (.staging g reg) := fun c hc =>
  (filterPlane_forall (l := .staging g reg) id id nofun (fun _ => hne) stable_univ c hc).avoids

/-- A frame on another set. -/
theorem queueFrame_avoids {g reg : Nat} (hne : g ≠ e.set) :
    ∀ c ∈ (queueFrame d e s).1, c.Avoids (.staging g reg) := by
  intro c hc
  rcases List.mem_append.mp hc with hc | hc
  · rcases List.mem_append.mp hc with hc | hc
    · exact (copyPlanes_forall (C := Set.univ) c hc).avoids
    · exact overPlanes_forall (fun plane _ s => filterPlane_avoids fun h => hne (region_eq_iff.mp h).1) c hc
  · split at hc
    · rw [List.mem_singleton] at hc
      subst hc
      trivial
    · cases hc

/-- With a region for each plane, the others leave it alone. -/
theorem planes_avoid {q : Nat} (hw : d.filter.whole) (hq : q ∈ d.filter.filtered)
    (hsub : ∀ p ∈ planes, p ∈ d.filter.filtered ∧ p ≠ q) :
    ∀ c ∈ (overPlanes (filterPlane d e) planes s).1, c.Avoids (region d e q) := by
  refine overPlanes_forall fun p hp s c hc => ?_
  obtain ⟨hpf, hne⟩ := hsub p hp
  have hregion : region d e q ≠ region d e p := fun h =>
    Lssc.region_ne hw hpf hq hne.symm (region_eq_iff.mp h).2
  exact filterPlane_avoids hregion c hc

theorem planes_fed (hsub : ∀ q ∈ planes, q ∈ d.filter.filtered) (hnodup : planes.Nodup)
    (hm : d.filter.whole → ∀ q ∈ planes, staged d e q → m (region d e q) = (e.id, q)) :
    Fed m (overPlanes (filterPlane d e) planes s).1 ∧
      (d.filter.whole → ∀ q ∈ planes, kept d e q →
        sequential (overPlanes (filterPlane d e) planes s).1 m (region d e q) = (e.id, q)) := by
  induction planes generalizing s m with
  | nil => exact ⟨trivial, nofun⟩
  | cons p planes ih =>
    obtain ⟨hp, hnodup⟩ := List.nodup_cons.mp hnodup
    have hpf := hsub p List.mem_cons_self
    have hrest : ∀ q ∈ planes, q ∈ d.filter.filtered := fun q hq => hsub q (List.mem_cons_of_mem _ hq)
    have hown : ∀ l ∈ if d.filter.whole && staged d e p then [region d e p] else [], m l = (e.id, p) := by
      intro l hl
      split at hl
      · next h =>
        obtain ⟨hw, hstaged⟩ := Bool.and_eq_true_iff.mp h
        rw [List.mem_singleton.mp hl]
        exact hm hw p List.mem_cons_self hstaged
      · cases hl
    have hplane : Feeds (e.id, p) (if d.filter.whole && staged d e p then [region d e p] else [])
        (filterPlane d e p s).1
        (if d.filter.whole && kept d e p then [region d e p] else []) := filterPlane_feeds (Lssc.slotGpu_eq hpf)
    obtain ⟨hfed, hleft⟩ := hplane m hown
    have hsame : d.filter.whole → ∀ q ∈ planes,
        sequential (filterPlane d e p s).1 m (region d e q) = m (region d e q) := by
      intro hw q hq
      have hne : p ≠ q := fun h => hp (h ▸ hq)
      have hregion : region d e q ≠ region d e p := fun h =>
        Lssc.region_ne hw hpf (hrest q hq) hne.symm (region_eq_iff.mp h).2
      exact sequential_of_avoids (filterPlane_avoids hregion) m
    obtain ⟨hfed', hleft'⟩ := ih (s := (filterPlane d e p s).2) (m := sequential (filterPlane d e p s).1 m) hrest hnodup
      fun hw q hq hstaged => (hsame hw q hq).trans (hm hw q (List.mem_cons_of_mem _ hq) hstaged)
    refine ⟨fed_append.mpr ⟨hfed, hfed'⟩, fun hw q hq hkept => ?_⟩
    change sequential (_ ++ _) m _ = _
    rw [sequential_append]
    cases List.mem_cons.mp hq with
    | inl heq =>
      subst heq
      rw [sequential_of_avoids (planes_avoid hw hpf fun r hr => ⟨hrest r hr, fun h => hp (h ▸ hr)⟩)]
      exact hleft _ (by simp [hw, hkept])
    | inr hmem => exact hleft' hw q hmem hkept

theorem queueFrame_fed
    (hm : d.filter.whole → ∀ q ∈ d.filter.filtered, staged d e q → m (region d e q) = (e.id, q)) :
    Fed m (queueFrame d e s).1 ∧ (d.filter.whole → ∀ q ∈ d.filter.filtered, kept d e q →
      sequential (queueFrame d e s).1 m (region d e q) = (e.id, q)) := by
  have hcopies : Feeds (0, 0) [] (copyPlanes d e s).1 [] := quiet_of_spares fun l => copyPlanes_forall
  have hsame : ∀ l, sequential (copyPlanes d e s).1 m l = m l := fun l =>
    sequential_of_avoids (fun c hc => (copyPlanes_forall (C := Set.univ) c hc).avoids) m
  obtain ⟨hfed, hleft⟩ := planes_fed (s := (copyPlanes d e s).2) (m := sequential (copyPlanes d e s).1 m)
    (fun q hq => hq) Lssc.filtered_nodup fun hw q hq hstaged => (hsame _).trans (hm hw q hq hstaged)
  have hdone : ∀ m : Loc → Tag, Fed m (if d.filter.whole then [.record (.done e.set) .copy] else [] : Calls) ∧
      sequential (if d.filter.whole then [.record (.done e.set) .copy] else [] : Calls) m = m := by
    intro m
    split
    · exact ⟨⟨trivial, trivial⟩, rfl⟩
    · exact ⟨trivial, rfl⟩
  refine ⟨fed_append.mpr ⟨fed_append.mpr ⟨(hcopies m nofun).1, hfed⟩, (hdone _).1⟩, fun hw q hq hkept => ?_⟩
  change sequential (_ ++ _ ++ _) m _ = _
  rw [sequential_append, sequential_append, (hdone _).2]
  exact hleft hw q hq hkept

theorem fed_flatMap {xs : List Nat} {f : Nat → Calls} (h : ∀ x ∈ xs, ∀ m, Fed m (f x)) : Fed m (xs.flatMap f) := by
  induction xs generalizing m with
  | nil => trivial
  | cons x xs ih =>
    exact fed_append.mpr ⟨h x List.mem_cons_self m, ih fun y hy => h y (List.mem_cons_of_mem _ hy)⟩

theorem stageIn_fed : Fed m (stageIn d e) := by
  refine fed_flatMap fun plane _ m => ?_
  split
  · exact ⟨nofun, trivial, trivial⟩
  · trivial

theorem stageIn_staged {q : Nat} (hw : d.filter.whole) (hq : q ∈ d.filter.filtered) (hstaged : staged d e q) :
    sequential (stageIn d e) m (region d e q) = (e.id, q) := by
  have hown : (if d.filter.whole && !d.filter.gpu && !e.request.directIn q then stagePlane d e q else []) =
      stagePlane d e q := by
    rw [staged, Lssc.slotGpu_eq hq] at hstaged
    rw [hw, Bool.true_and, if_pos hstaged]
  refine sequential_flatMap_own (P := fun _ => True) (Q := fun m : Loc → Tag => m (region d e q) = (e.id, q)) hq
    Lssc.filtered_nodup (fun _ _ _ _ _ => trivial) (fun m _ => ?_) (fun p hp hne m hm => ?_) trivial
  · rw [hown]
    exact Function.update_self _ _ _
  · split
    · have hregion : region d e q ≠ region d e p := fun h => Lssc.region_ne hw hp hq hne.symm (region_eq_iff.mp h).2
      exact (Function.update_of_ne hregion _ _).trans hm
    · exact hm

/-- What is copied out stays in its region. -/
theorem finishFrame_fed
    (hm : d.filter.whole → ∀ q ∈ d.filter.filtered, kept d e q → m (region d e q) = (e.id, q)) :
    Fed m (finishFrame d e) := by
  unfold finishFrame
  split
  · next hw =>
    refine ⟨trivial, ?_⟩
    change Fed m _
    have hall : ∀ q ∈ d.filter.filtered, kept d e q → m (region d e q) = (e.id, q) := hm hw
    have hgpu : ∀ q ∈ d.filter.filtered, d.filter.slotGpu = d.filter.gpu := fun q hq => Lssc.slotGpu_eq hq
    generalize d.filter.filtered = planes at hall hgpu ⊢
    induction planes with
    | nil => trivial
    | cons q planes ih =>
      have hrest := ih (fun p hp => hall p (List.mem_cons_of_mem _ hp)) fun p hp => hgpu p (List.mem_cons_of_mem _ hp)
      rw [List.flatMap_cons]
      split
      · exact hrest
      · next hout =>
        have hq : m (region d e q) = (e.id, q) := by
          refine hall q List.mem_cons_self ?_
          rw [kept, hgpu q List.mem_cons_self]
          simpa using hout
        have hsame : sequential (finishDownload d e q) m = m := by
          change Function.update m (region d e q) (e.id, q) = m
          rw [← hq, Function.update_eq_self]
        refine fed_append.mpr ⟨(finishDownload_feeds m fun l hl => ?_).1, hsame.symm ▸ hrest⟩
        rw [List.mem_singleton.mp hl]
        exact hq
  · trivial

end FedFrame

/-! ### Runs -/

section FedRun

variable {d : Plan} {t : Run} {m₀ : Loc → Tag}

/-- Every read so far has found its own, and the regions hold what their requests have still to read. -/
structure Sees (d : Plan) (m₀ : Loc → Tag) (t : Run) : Prop where
  fed : Fed m₀ t.calls
  staged : ∀ g e, t.leases g = some e → e.entered = false → d.filter.whole → ∀ q ∈ d.filter.filtered,
    staged d e q → sequential t.calls m₀ (region d e q) = (e.id, q)
  kept : ∀ g e, t.leases g = some e → e.entered = true → d.filter.whole → ∀ q ∈ d.filter.filtered,
    kept d e q → sequential t.calls m₀ (region d e q) = (e.id, q)

/-- Calls that leave the other sets alone. -/
theorem Sees.update (h : Sees d m₀ t) (hinv : Inv d t) {g : Nat} {cs : Calls} {lease : Option Lease} {t' : Run}
    (hcalls : t'.calls = t.calls ++ cs) (hleases : t'.leases = Function.update t.leases g lease)
    (hfed : Fed (sequential t.calls m₀) cs) (havoid : ∀ g' reg, g' ≠ g → ∀ c ∈ cs, c.Avoids (.staging g' reg))
    (hstaged : ∀ e, lease = some e → e.entered = false → d.filter.whole → ∀ q ∈ d.filter.filtered,
      SlotPipeline.staged d e q → sequential cs (sequential t.calls m₀) (region d e q) = (e.id, q))
    (hkept : ∀ e, lease = some e → e.entered = true → d.filter.whole → ∀ q ∈ d.filter.filtered,
      SlotPipeline.kept d e q → sequential cs (sequential t.calls m₀) (region d e q) = (e.id, q)) : Sees d m₀ t' := by
  have hother : ∀ g' e q, g' ≠ g → t.leases g' = some e →
      sequential cs (sequential t.calls m₀) (region d e q) = sequential t.calls m₀ (region d e q) := by
    intro g' e q hne he
    obtain rfl := hinv.set g' e he
    exact sequential_of_avoids (havoid e.set _ hne) _
  refine ⟨hcalls ▸ fed_append.mpr ⟨h.fed, hfed⟩, fun g' e he hentered hw q hq hs => ?_,
    fun g' e he hentered hw q hq hk => ?_⟩
  · rw [hcalls, sequential_append]
    rw [hleases] at he
    by_cases hg : g' = g
    · subst hg
      rw [Function.update_self] at he
      exact hstaged e he hentered hw q hq hs
    · rw [Function.update_of_ne hg] at he
      rw [hother g' e q hg he]
      exact h.staged g' e he hentered hw q hq hs
  · rw [hcalls, sequential_append]
    rw [hleases] at he
    by_cases hg : g' = g
    · subst hg
      rw [Function.update_self] at he
      exact hkept e he hentered hw q hq hk
    · rw [Function.update_of_ne hg] at he
      rw [hother g' e q hg he]
      exact h.kept g' e he hentered hw q hq hk

theorem Sees.step (h : Sees d m₀ t) (hinv : Inv d t) (x : Step) : Sees d m₀ (t.step d x) := by
  cases x with
  | acquire g r =>
    unfold Run.step
    dsimp only
    split
    · exact h
    · refine h.update hinv rfl rfl stageIn_fed (fun g' reg hne c hc => ?_) ?_ ?_
      · exact (stageIn_forall (C := Set.univ) (fun reg' heq => hne (Loc.staging.inj heq).1) c hc).avoids
      · intro e he _ hw q hq hs
        cases he
        exact stageIn_staged hw hq hs
      · intro e he hentered
        cases he
        cases hentered
  | enter g =>
    unfold Run.step
    dsimp only
    split
    · exact h
    · next e he =>
      obtain rfl := hinv.set g e he
      split
      · exact h
      · next hentered =>
        obtain ⟨hfed, hleft⟩ := queueFrame_fed (s := t.slot) (h.staged e.set e he (by simpa using hentered))
        refine h.update hinv rfl rfl hfed (fun g' reg hne => queueFrame_avoids hne) ?_ ?_
        · intro e' he' hentered'
          cases he'
          cases hentered'
        · intro e' he' _ hw q hq hk
          cases he'
          exact hleft hw q hq hk
  | leave g =>
    unfold Run.step
    dsimp only
    split
    · exact h
    · next e he =>
      obtain rfl := hinv.set g e he
      split
      · next hentered =>
        refine h.update hinv rfl rfl (finishFrame_fed (h.kept e.set e he hentered)) (fun g' reg hne c hc => ?_) nofun
          nofun
        exact (finishFrame_forall (C := Set.univ) (fun reg' heq => hne (Loc.staging.inj heq).1) c hc).avoids
      · exact h

theorem run_sees (d : Plan) (m₀ : Loc → Tag) (s : Slot) (steps : List Step) : Sees d m₀ (run d s steps) := by
  induction steps using List.reverseRecOn with
  | nil => exact ⟨trivial, nofun, nofun⟩
  | append_singleton steps x ih =>
    rw [run, List.foldl_append]
    exact ih.step (run_inv s steps) x

end FedRun

/-- In every execution of what has been asked for at any moment of a run: an item that touches a buffer is done after
the earlier ones that touch it; and the last of these that wrote it, where the item reads it, worked for its own
request and plane. -/
theorem slotPipeline_ordered (d : Plan) (s : Slot) (steps : List Step) (cs : Calls)
    (hcs : cs <+: (run d s steps).calls) :
    (∀ m₀ st, Exec m₀ cs st → ∀ i j x y l, i < j → st.queue.items[i]? = some x → st.queue.items[j]? = some y →
      l ∈ x.locs → l ∈ y.locs → j ∈ st.done → i ∈ st.done) ∧
    ∀ m₀ before after st l reads f, cs = before ++ .queue st (.assign l reads f) :: after →
      ∀ l' ∈ reads, sequential before m₀ l' = f [] := by
  obtain ⟨rest, hrest⟩ := hcs
  constructor
  · intro m₀ st hexec i j x y l hij hx hy hlx hly hj
    have hsafe := run_safe (d := d) s steps
    rw [← hrest] at hsafe
    exact hexec.conflict_done (safeFrom_append.mp hsafe).1 hij hx hy hlx hly hj
  · rintro m₀ before after st l reads f rfl
    have hfed := (run_sees d m₀ s steps).fed
    rw [← hrest] at hfed
    exact (fed_append.mp hfed).1.finds

/-- Three planes of which one is left alone, with a region for each and three sets of buffers. -/
def threePlanes : Plan :=
  ⟨⟨3, fun plane => plane == 1, fun _ => ⟨id, id, fun v _ => v, id, fun v _ => v⟩, false, 3, true⟩, 64, fun _ => 1000⟩

def stagedRequest : Lssc.Request Unit :=
  ⟨⟨true, fun _ _ => true, fun _ => false⟩, ⟨true, fun _ _ => true, fun _ => false⟩, fun _ => false, fun _ => false,
    fun _ => false, fun _ => ()⟩

def firstSlot : Slot := ⟨0, ⟨false, [], 0, 0⟩, ⟨false, [], 0, 0⟩⟩

set_option maxRecDepth 10000 in
/-- Two requests in flight. -/
theorem slotPipeline_ordered_two :
    0 < (run threePlanes firstSlot [.acquire 0 stagedRequest, .enter 0, .acquire 1 stagedRequest, .enter 1,
      .leave 0, .leave 1]).calls.length ∧
    ∀ m₀ st, Exec m₀ (run threePlanes firstSlot [.acquire 0 stagedRequest, .enter 0,
      .acquire 1 stagedRequest, .enter 1, .leave 0, .leave 1]).calls st → ∀ i j x y l, i < j →
        st.queue.items[i]? = some x → st.queue.items[j]? = some y → l ∈ x.locs → l ∈ y.locs → j ∈ st.done →
          i ∈ st.done :=
  ⟨by decide, (slotPipeline_ordered threePlanes firstSlot [.acquire 0 stagedRequest, .enter 0, .acquire 1 stagedRequest,
    .enter 1, .leave 0, .leave 1] _ (List.prefix_refl _)).1⟩

end NssFactory.Cuda.SlotPipeline

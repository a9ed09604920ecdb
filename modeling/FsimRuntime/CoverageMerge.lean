import FsimRuntime.CoverageModel

/-!
# Merging coverage databases

`merge_coverage_databases` (`coverage_database_merge.cpp`), and what it makes
of valid inputs: their union in canonical order, whatever their order.
-/

namespace FsimRuntime.Coverage

open KeyedSort List

structure MergeLimits where
  model : ModelLimits
  maximumInputs : ℕ
  deriving Repr

inductive MergeError
  | emptyInput
  | resourceLimit
  | allocationFailure
  | invalidInput
  | fingerprintMismatch
  | sourceInventoryMismatch
  | exclusionInventoryMismatch
  | duplicateRun
  deriving DecidableEq, Repr

structure MergeFailure where
  error : MergeError
  modelError : Option ModelError
  inputIndex : ℕ
  recordIndex : ℕ
  deriving DecidableEq, Repr

def mergeFailure (inputIndex : ℕ) (failure : Failure) : MergeFailure where
  error := match failure.error with
    | .resourceLimit | .arithmeticOverflow => .resourceLimit
    | .allocationFailure => .allocationFailure
    | _ => .invalidInput
  modelError := some failure.error
  inputIndex := inputIndex
  recordIndex := failure.index

/-- `checked_accumulate` over the inputs' runs and metrics. -/
def countRecords (limits : ModelLimits) : ℕ → ℕ → ℕ → List Contents →
    Except MergeFailure Unit
  | _, _, _, [] => .ok ()
  | index, runs, metrics, input :: inputs =>
    if limits.maximumRuns < runs + input.runs.length ||
        limits.maximumMetrics < metrics + input.metrics.length then
      .error ⟨.resourceLimit, some .resourceLimit, index, 0⟩
    else countRecords limits (index + 1) (runs + input.runs.length)
      (metrics + input.metrics.length) inputs

def insertRuns (inputIndex : ℕ) : ℕ → List Identity → List RunRecord →
    Except MergeFailure (List Identity)
  | _, seen, [] => .ok seen
  | runIndex, seen, run :: runs =>
    if run.identity ∈ seen then
      .error ⟨.duplicateRun, some .duplicateRun, inputIndex, runIndex⟩
    else insertRuns inputIndex (runIndex + 1) (run.identity :: seen) runs

def mergeInputs (limits : ModelLimits) :
    ℕ → List Identity → Contents → List Contents → Except MergeFailure Contents
  | _, _, merged, [] => .ok merged
  | index, seen, merged, input :: inputs => do
    let candidate ← (makeContents limits input).mapError (mergeFailure index)
    refuse (candidate.fingerprint ≠ merged.fingerprint) ⟨.fingerprintMismatch, none, index, 0⟩
    refuse (candidate.sources ≠ merged.sources) ⟨.sourceInventoryMismatch, none, index, 0⟩
    refuse (candidate.exclusions ≠ merged.exclusions)
      ⟨.exclusionInventoryMismatch, none, index, 0⟩
    let seen ← insertRuns index 0 seen candidate.runs
    mergeInputs limits (index + 1) seen
      { merged with
        runs := merged.runs ++ candidate.runs
        metrics := merged.metrics ++ candidate.metrics } inputs

def merge (limits : MergeLimits) : List Contents → Except MergeFailure Contents
  | [] => .error ⟨.emptyInput, none, 0, 0⟩
  | first :: inputs => do
    refuse (limits.maximumInputs < (first :: inputs).length)
      ⟨.resourceLimit, some .resourceLimit, 0, 0⟩
    countRecords limits.model 0 0 0 (first :: inputs)
    let reference ← (makeContents limits.model first).mapError (mergeFailure 0)
    let merged ← mergeInputs limits.model 1 (reference.runs.map (·.identity)) reference inputs
    (makeContents limits.model merged).mapError (mergeFailure 0)

section Canonical

variable {l : ModelLimits} {contents merged : Contents}

theorem makeContents_ok : makeContents l contents = .ok merged ↔
    merged = contents.canonical ∧ merged.Valid l := by
  simp only [makeContents, bind_ok, pure, Except.pure, Except.ok.injEq]
  constructor
  · rintro ⟨_, hv, rfl⟩
    exact ⟨rfl, validate_ok.mp hv⟩
  · rintro ⟨rfl, hv⟩
    exact ⟨(), validate_ok.mpr hv, rfl⟩

theorem metrics_increasing (h : contents.metrics.IsChain MetricRecord.Link) :
    Increasing MetricRecord.key contents.metrics :=
  increasing_iff_isChain.mpr (h.imp fun _ _ hl => hl.2)

theorem exclusions_increasing (h : contents.exclusions.IsChain ExclusionRecord.Link) :
    Increasing ExclusionRecord.key contents.exclusions :=
  increasing_iff_isChain.mpr (h.imp fun _ _ hl => hl.2)

theorem Contents.Valid.canonical_eq (h : contents.Valid l) : contents.canonical = contents := by
  rw [canonical, h.sources.2.sortBy_eq, h.runs.2.sortBy_eq,
    (metrics_increasing h.metrics.2).sortBy_eq, (exclusions_increasing h.exclusions.2).sortBy_eq]

theorem makeContents_valid (h : contents.Valid l) : makeContents l contents = .ok contents :=
  makeContents_ok.mpr ⟨h.canonical_eq.symm, h⟩

theorem lines_agree {m : List MetricRecord} (h : m.IsChain MetricRecord.Link) :
    m.Pairwise fun a b => a.pointKey = b.pointKey → a.sourceLine = b.sourceLine := by
  induction m with
  | nil => exact .nil
  | cons a m ih =>
    cases m with
    | nil => exact pairwise_singleton ..
    | cons c m =>
      obtain ⟨hl, hc⟩ := isChain_cons_cons.mp h
      have hr := ih hc
      refine .cons (fun b hb hp => ?_) hr
      rcases mem_cons.mp hb with rfl | hb
      · exact hl.1 hp
      · have hin : Increasing MetricRecord.key (c :: m) :=
          increasing_iff_isChain.mpr (hc.imp fun _ _ hl => hl.2)
        have hcb : c.pointKey ≤ b.pointKey :=
          Prod.Lex.monotone_fst _ _ ((pairwise_cons.mp hin).1 b hb).le
        have ha : a.pointKey ≤ c.pointKey := Prod.Lex.monotone_fst _ _ hl.2.le
        have he : c.pointKey = b.pointKey := le_antisymm hcb (hp ▸ ha)
        rw [hl.1 (hp.trans he.symm), (pairwise_cons.mp hr).1 b hb he]

end Canonical

section Union

variable {l : ModelLimits} {inputs inputs' : List Contents} {contents merged : Contents}

def allRuns (inputs : List Contents) : List RunRecord := inputs.flatMap Contents.runs

def allMetrics (inputs : List Contents) : List MetricRecord := inputs.flatMap Contents.metrics

def Contents.Alike (a b : Contents) : Prop :=
  a.fingerprint = b.fingerprint ∧ a.sources = b.sources ∧ a.exclusions = b.exclusions

theorem countRecords_ok {index r m : ℕ} (hr : r ≤ l.maximumRuns) (hm : m ≤ l.maximumMetrics) :
    countRecords l index r m inputs = .ok () ↔ r + (allRuns inputs).length ≤ l.maximumRuns ∧
        m + (allMetrics inputs).length ≤ l.maximumMetrics := by
  induction inputs generalizing index r m with
  | nil => simp [countRecords, allRuns, allMetrics, hr, hm]
  | cons i inputs ih =>
    simp only [countRecords, allRuns, allMetrics, flatMap_cons, length_append,
      ← Nat.add_assoc, Bool.or_eq_true, decide_eq_true_eq]
    split
    · next ho =>
      simp only [reduceCtorEq, false_iff]
      omega
    · next hf =>
      rw [ih (by omega) (by omega)]
      rfl

theorem insertRuns_ok {inputIndex runIndex : ℕ} {s s' : List Identity} {r : List RunRecord}
    (hs : s.Nodup) : insertRuns inputIndex runIndex s r = .ok s' ↔
      s' = (r.map (·.identity)).reverse ++ s ∧ (s ++ r.map (·.identity)).Nodup := by
  induction r generalizing runIndex s with
  | nil => simp [insertRuns, hs, eq_comm]
  | cons run r ih =>
    rw [insertRuns]
    have hm : (s ++ (run :: r).map (·.identity)).Nodup ↔
        (run.identity :: (s ++ r.map (·.identity))).Nodup := by
      exact perm_middle.nodup_iff
    split
    · next hme =>
      simp only [reduceCtorEq, false_iff, hm, nodup_cons, mem_append]
      exact fun h => h.2.1 (.inl hme)
    · next hme =>
      rw [ih (nodup_cons.mpr ⟨hme, hs⟩), hm]
      simp

theorem mergeInputs_ok {index : ℕ} {s : List Identity} (hse : s.Nodup)
    (hv : ∀ c ∈ inputs, c.Valid l) : mergeInputs l index s contents inputs = .ok merged ↔
      (∀ c ∈ inputs, c.Alike contents) ∧ (s ++ (allRuns inputs).map (·.identity)).Nodup ∧
        merged = { contents with
          runs := contents.runs ++ allRuns inputs
          metrics := contents.metrics ++ allMetrics inputs } := by
  induction inputs generalizing index s contents with
  | nil => simp [mergeInputs, allRuns, allMetrics, hse, eq_comm]
  | cons i inputs ih =>
    obtain ⟨hinp, hin⟩ := forall_mem_cons.mp hv
    simp only [mergeInputs, bind_ok, mapError_ok, makeContents_valid hinp, Except.ok.injEq,
      exists_eq_left', refuse_ok, exists_const, decide_eq_false_iff_not, not_not,
      insertRuns_ok hse, forall_mem_cons]
    have hp : ((i.runs.map (·.identity)).reverse ++ s ++
        (allRuns inputs).map (·.identity)).Perm
          (s ++ (allRuns (i :: inputs)).map (·.identity)) := by
      simp only [allRuns, flatMap_cons, map_append, ← append_assoc]
      exact (perm_append_comm.trans ((reverse_perm _).append_left _)).append_right _
    have hsa : ({ contents with
        runs := contents.runs ++ i.runs ++ allRuns inputs
        metrics := contents.metrics ++ i.metrics ++ allMetrics inputs } : Contents) =
        { contents with
          runs := contents.runs ++ allRuns (i :: inputs)
          metrics := contents.metrics ++ allMetrics (i :: inputs) } := by simp [allRuns, allMetrics]
    constructor
    · rintro ⟨hf, hs, he, _, ⟨rfl, hn⟩, hr⟩
      have hs' : ((i.runs.map (·.identity)).reverse ++ s).Nodup :=
        (perm_append_comm.trans ((reverse_perm _).append_left _)).nodup_iff.mpr hn
      obtain ⟨ha, hal, rfl⟩ := (ih hs' hin).mp hr
      exact ⟨⟨⟨hf, hs, he⟩, ha⟩, hp.nodup_iff.mp hal, hsa⟩
    · rintro ⟨⟨⟨hf, hs, he⟩, ha⟩, hal, rfl⟩
      have ha' := hp.nodup_iff.mpr hal
      have hs' := (nodup_append.mp ha').1
      refine ⟨hf, hs, he, _, ⟨rfl, ?_⟩, (ih hs' hin).mpr ⟨ha, ha', hsa.symm⟩⟩
      exact (perm_append_comm.trans ((reverse_perm _).append_left _)).nodup_iff.mp hs'

/-- The inputs have a merge. -/
structure Merges (limits : MergeLimits) (inputs : List Contents) (merged : Contents) : Prop where
  nonempty : inputs ≠ []
  count : inputs.length ≤ limits.maximumInputs
  records : (allRuns inputs).length ≤ limits.model.maximumRuns ∧
    (allMetrics inputs).length ≤ limits.model.maximumMetrics
  alike : ∀ c ∈ inputs, c.Alike merged
  identities : ((allRuns inputs).map (·.identity)).Nodup
  runs : merged.runs = sortBy RunRecord.identity (allRuns inputs)
  metrics : merged.metrics = sortBy MetricRecord.key (allMetrics inputs)
  valid : merged.Valid limits.model

variable {l : MergeLimits}

theorem merge_ok (hv : ∀ c ∈ inputs, c.Valid l.model) :
    merge l inputs = .ok merged ↔ Merges l inputs merged := by
  cases inputs with
  | nil => exact ⟨nofun, fun h => absurd rfl h.nonempty⟩
  | cons first inputs =>
    obtain ⟨hfi, hin⟩ := forall_mem_cons.mp hv
    have hn : (first.runs.map (·.identity)).Nodup := hfi.runs.2.nodup
    simp only [merge, bind_ok, refuse_ok, exists_const, decide_eq_false_iff_not, not_lt,
      mapError_ok, makeContents_valid hfi, Except.ok.injEq, exists_eq_left', mergeInputs_ok hn hin,
      countRecords_ok (Nat.zero_le _) (Nat.zero_le _), Nat.zero_add]
    have hso : sortBy SourceRecord.identity first.sources = first.sources :=
      hfi.sources.2.sortBy_eq
    have hexc : sortBy ExclusionRecord.key first.exclusions = first.exclusions :=
      (exclusions_increasing hfi.exclusions.2).sortBy_eq
    have hid : first.runs.map (·.identity) ++ (allRuns inputs).map (·.identity) =
        (allRuns (first :: inputs)).map (·.identity) := by simp [allRuns]
    constructor
    · rintro ⟨hco, hr, _, ⟨ha, hids, rfl⟩, hma⟩
      obtain ⟨rfl, hv'⟩ := makeContents_ok.mp hma
      have hse : first.Alike (Contents.canonical { first with
          runs := first.runs ++ allRuns inputs
          metrics := first.metrics ++ allMetrics inputs }) :=
        ⟨rfl, hso.symm, hexc.symm⟩
      refine ⟨cons_ne_nil _ _, hco, hr, forall_mem_cons.mpr ⟨hse, ?_⟩,
        hid ▸ hids, rfl, rfl, hv'⟩
      intro c hc
      obtain ⟨hf, hs, he⟩ := ha c hc
      exact ⟨hf, hs.trans hso.symm, he.trans hexc.symm⟩
    · rintro ⟨-, hco, hr, ha, hids, hru, hm, hv'⟩
      obtain ⟨⟨hf, hs, he⟩, ha⟩ := forall_mem_cons.mp ha
      refine ⟨hco, hr, _, ⟨fun c hc => ?_, hid ▸ hids, rfl⟩,
        makeContents_ok.mpr ⟨?_, hv'⟩⟩
      · obtain ⟨hf', hs', he'⟩ := ha c hc
        exact ⟨hf'.trans hf.symm, hs'.trans hs.symm, he'.trans he.symm⟩
      · obtain ⟨f, s, runs, metrics, e⟩ := merged
        subst hf hs he hru hm
        simp only [Contents.canonical, hso, hexc]
        rfl

section
variable (h : Merges l inputs merged)
include h

theorem Merges.keys : ((allMetrics inputs).map MetricRecord.key).Nodup := by
  have hin := metrics_increasing h.valid.metrics.2
  rw [h.metrics] at hin
  exact sortBy_increasing.mp hin

theorem Merges.congr (hn : inputs' ≠ [])
    (hc : inputs'.length ≤ l.maximumInputs) (ha : ∀ c ∈ inputs', c.Alike merged)
    (hr : (allRuns inputs).Perm (allRuns inputs'))
    (hm : (allMetrics inputs).Perm (allMetrics inputs')) : Merges l inputs' merged where
  nonempty := hn
  count := hc
  records := hr.length_eq ▸ hm.length_eq ▸ h.records
  alike := ha
  identities := (hr.map _).nodup_iff.mp h.identities
  runs := h.runs.trans (sortBy_eq_of_perm hr h.identities)
  metrics := h.metrics.trans (sortBy_eq_of_perm hm h.keys)
  valid := h.valid

theorem Merges.perm (hp : inputs.Perm inputs') : Merges l inputs' merged := by
  refine h.congr ?_ (hp.length_eq ▸ h.count) (fun c hc => h.alike c (hp.mem_iff.mpr hc))
    (hp.flatMap_right _) (hp.flatMap_right _)
  rintro rfl
  exact h.nonempty hp.eq_nil

end

theorem Merges.replace {part r : List Contents} {m : Contents}
    (hp : Merges l part m) (hco : (part ++ r).length ≤ l.maximumInputs) :
    Merges l (m :: r) merged ↔ Merges l (part ++ r) merged := by
  have hr : (allRuns (m :: r)).Perm (allRuns (part ++ r)) := by
    simp only [allRuns, flatMap_cons, flatMap_append, hp.runs]
    exact (sortBy_perm _ _).append_right _
  have hm : (allMetrics (m :: r)).Perm (allMetrics (part ++ r)) := by
    simp only [allMetrics, flatMap_cons, flatMap_append, hp.metrics]
    exact (sortBy_perm _ _).append_right _
  obtain ⟨c, hc⟩ := exists_mem_of_ne_nil _ hp.nonempty
  constructor
  · intro h
    obtain ⟨⟨hf, hs, he⟩, hre⟩ := forall_mem_cons.mp h.alike
    refine h.congr (by simp [hp.nonempty]) hco (fun c hc => ?_) hr hm
    rcases mem_append.mp hc with hc | hc
    · obtain ⟨hf', hs', he'⟩ := hp.alike c hc
      exact ⟨hf'.trans hf, hs'.trans hs, he'.trans he⟩
    · exact hre c hc
  · intro h
    have hl : 0 < part.length := length_pos_of_mem hc
    refine h.congr (cons_ne_nil _ _) ?_ ?_ hr.symm hm.symm
    · simp only [length_append, length_cons] at hco ⊢
      omega
    · refine forall_mem_cons.mpr ⟨?_, fun c hc => h.alike c (mem_append_right _ hc)⟩
      obtain ⟨hf, hs, he⟩ := hp.alike c hc
      obtain ⟨hf', hs', he'⟩ := h.alike c (mem_append_left _ hc)
      exact ⟨hf.symm.trans hf', hs.symm.trans hs', he.symm.trans he'⟩

theorem isChain_link {m : List MetricRecord} (hk : Increasing MetricRecord.key m)
    (hl : ∀ a ∈ m, ∀ b ∈ m, a.pointKey = b.pointKey → a.sourceLine = b.sourceLine) :
    m.IsChain MetricRecord.Link := by
  refine List.Pairwise.isChain (List.Pairwise.imp_of_mem ?_ hk)
  exact fun ha hb hlt => ⟨hl _ ha _ hb, hlt⟩

theorem Merges.lines (h : Merges l inputs merged) :
    ∀ a ∈ allMetrics inputs, ∀ b ∈ allMetrics inputs,
      a.pointKey = b.pointKey → a.sourceLine = b.sourceLine := by
  have hp := lines_agree h.valid.metrics.2
  rw [h.metrics] at hp
  intro a ha b hb
  have : Std.Symm fun a b : MetricRecord => a.pointKey = b.pointKey →
      a.sourceLine = b.sourceLine :=
    ⟨fun _ _ hag hpo => (hag hpo.symm).symm⟩
  exact hp.forall_of_forall (fun _ _ _ => rfl) (mem_sortBy.mpr ha) (mem_sortBy.mpr hb)

theorem Merges.part {part r : List Contents} (h : Merges l (part ++ r) merged) (hp : part ≠ [])
    (hv : ∀ c ∈ part, c.Valid l.model) : ∃ middle, Merges l part middle := by
  have har : allRuns (part ++ r) = allRuns part ++ allRuns r := flatMap_append
  have ham : allMetrics (part ++ r) = allMetrics part ++ allMetrics r :=
    flatMap_append
  have hid := h.identities
  have hk := h.keys
  rw [har, map_append] at hid
  rw [ham, map_append] at hk
  have hr := h.records
  rw [har, ham, length_append, length_append] at hr
  have hal : ∀ c ∈ part, c.Alike merged := fun c hc => h.alike c (mem_append_left _ hc)
  let middle : Contents := { merged with
    runs := sortBy RunRecord.identity (allRuns part)
    metrics := sortBy MetricRecord.key (allMetrics part) }
  have ht : middle.text ≤ merged.text := by
    have hrn : (middle.runs.map RunRecord.text).sum ≤ (merged.runs.map RunRecord.text).sum := by
      rw [h.runs, ((sortBy_perm _ (allRuns part)).map _).sum_nat,
        ((sortBy_perm _ (allRuns (part ++ r))).map _).sum_nat, har, map_append,
        sum_append]
      exact Nat.le_add_right ..
    exact Nat.add_le_add_right (Nat.add_le_add_left hrn _) _
  refine ⟨middle, hp, (length_append ▸ Nat.le_add_right ..).trans h.count,
    ⟨(Nat.le_add_right ..).trans hr.1, (Nat.le_add_right ..).trans hr.2⟩, hal,
    (nodup_append.mp hid).1, rfl, rfl, ?_⟩
  have hmr : middle.runs.length = (allRuns part).length := (sortBy_perm _ _).length_eq
  have hmm : middle.metrics.length = (allMetrics part).length :=
    (sortBy_perm _ _).length_eq
  obtain ⟨hso, -, -, he⟩ := h.valid.counts
  refine ⟨⟨hso, by omega, by omega, he⟩, h.valid.fingerprint,
    ⟨ht.trans h.valid.text.1, ht.trans h.valid.text.2⟩, h.valid.sources, ⟨fun run hru => ?_,
      sortBy_increasing.mpr (nodup_append.mp hid).1⟩, ⟨fun m hm => ?_, ?_⟩,
    ⟨fun e hexc => ?_, h.valid.exclusions.2⟩⟩
  · obtain ⟨c, hc, hru⟩ := mem_flatMap.mp (mem_sortBy.mp hru)
    exact (hv c hc).runs.1 run hru
  · -- The metric's run is one of the part's.
    obtain ⟨c, hc, hm⟩ := mem_flatMap.mp (mem_sortBy.mp hm)
    obtain ⟨hf, hs, ho⟩ := (hv c hc).metrics.1 m hm
    refine ⟨hf, hs, ?_⟩
    have hsa : hasSource middle m.sourceIdentity = hasSource c m.sourceIdentity := by
      simp only [hasSource, (hal c hc).2.1]
      rfl
    have hmo : hasRun c m.runIdentity → hasRun middle m.runIdentity := by
      simp only [hasRun, any_eq_true]
      rintro ⟨run, hru, heq⟩
      exact ⟨run, mem_sortBy.mpr (mem_flatMap.mpr ⟨_, hc, hru⟩), heq⟩
    simp only [validMetric, hsa, Bool.and_eq_true] at ho ⊢
    exact ⟨⟨⟨⟨ho.1.1.1.1, hmo ho.1.1.1.2⟩, ho.1.1.2⟩, ho.1.2⟩, ho.2⟩
  · refine isChain_link (sortBy_increasing.mpr (nodup_append.mp hk).1) ?_
    intro a ha b hb
    exact h.lines a (ham ▸ mem_append_left _ (mem_sortBy.mp ha)) b
      (ham ▸ mem_append_left _ (mem_sortBy.mp hb))
  · obtain ⟨hf, hs, ho⟩ := h.valid.exclusions.1 e hexc
    exact ⟨hf, hs, ho⟩

/-- Two inputs that have no merge: a common run, another design or exclusion policy, or another line
for a common point. -/
def Contents.Conflicts (a b : Contents) : Prop :=
  (∃ run ∈ a.runs, ∃ run' ∈ b.runs, run.identity = run'.identity) ∨ ¬a.Alike b ∨
    ∃ metric ∈ a.metrics, ∃ metric' ∈ b.metrics,
      metric.pointKey = metric'.pointKey ∧ metric.sourceLine ≠ metric'.sourceLine

theorem Merges.not_conflicts {a b : Contents}
    (h : Merges l (a :: b :: inputs) merged) : ¬a.Conflicts b := by
  rintro (⟨run, hr, run', hr', heq⟩ | hd | ⟨metric, hm, metric', hm', heq, hn⟩)
  · have hid := h.identities
    simp only [allRuns, flatMap_cons, map_append] at hid
    exact (nodup_append.mp hid).2.2 _ (mem_map_of_mem hr) _
      (mem_append_left _ (mem_map_of_mem hr')) heq
  · obtain ⟨hf, hs, he⟩ := h.alike a (by simp)
    obtain ⟨hf', hs', he'⟩ := h.alike b (by simp)
    exact hd ⟨hf.trans hf'.symm, hs.trans hs'.symm, he.trans he'.symm⟩
  · exact hn (h.lines metric (mem_flatMap.mpr ⟨a, by simp, hm⟩) metric'
      (mem_flatMap.mpr ⟨b, by simp, hm'⟩) heq)

/-- The merge of valid databases is a function of the multiset of inputs, associative, their union,
and none when two of them conflict. -/
theorem merge_multiset (limits : MergeLimits) (inputs : List Contents)
    (hvalid : ∀ c ∈ inputs, validate limits.model c = .ok ()) :
      (∀ inputs', inputs.Perm inputs' →
      (merge limits inputs').toOption = (merge limits inputs).toOption) ∧
    (∀ part rest, inputs.Perm (part ++ rest) → part ≠ [] →
      inputs.length ≤ limits.maximumInputs → (merge limits inputs).toOption =
        (merge limits part).toOption.bind fun merged =>
        (merge limits (merged :: rest)).toOption) ∧
    (∀ merged, merge limits inputs = .ok merged → validate limits.model merged = .ok () ∧
      merged.runs.Perm (allRuns inputs) ∧ Increasing RunRecord.identity merged.runs ∧
      merged.metrics.Perm (allMetrics inputs) ∧ Increasing MetricRecord.key merged.metrics) ∧
    ∀ a b rest, inputs.Perm (a :: b :: rest) → a.Conflicts b →
    (merge limits inputs).toOption = none := by
  have hvalid : ∀ c ∈ inputs, c.Valid limits.model := fun c hc => validate_ok.mp (hvalid c hc)
  have hpermValid : ∀ {inputs'}, inputs.Perm inputs' →
      ∀ c ∈ inputs', c.Valid limits.model :=
    fun hperm c hc => hvalid c (hperm.mem_iff.mpr hc)
  have hnone : (∀ merged, ¬Merges limits inputs merged) →
      (merge limits inputs).toOption = none := by
    intro h
    cases hmerge : merge limits inputs with
    | error => rfl
    | ok merged => exact absurd ((merge_ok hvalid).mp hmerge) (h merged)
  refine ⟨fun inputs' hperm => ?_, fun part rest hperm hpart hcount => ?_, fun merged hmerge =>
    ?_, fun a b rest hperm hconflict => ?_⟩
  · refine toOption_eq fun merged => ?_
    rw [merge_ok (hpermValid hperm), merge_ok hvalid]
    exact ⟨fun h => h.perm hperm.symm, fun h => h.perm hperm⟩
  · have hpartValid : ∀ c ∈ part, c.Valid limits.model :=
      fun c hc => hpermValid hperm c (mem_append_left _ hc)
    cases hmiddle : merge limits part with
    | error =>
      refine hnone fun merged h => ?_
      obtain ⟨middle, h⟩ := (h.perm hperm).part hpart hpartValid
      rw [(merge_ok hpartValid).mpr h] at hmiddle
      nomatch hmiddle
    | ok middle =>
      have hmerges := (merge_ok hpartValid).mp hmiddle
      have hrest : ∀ c ∈ middle :: rest, c.Valid limits.model := forall_mem_cons.mpr
        ⟨hmerges.valid, fun c hc => hpermValid hperm c (mem_append_right _ hc)⟩
      refine toOption_eq fun merged => ?_
      rw [merge_ok hvalid, merge_ok hrest, hmerges.replace (hperm.length_eq ▸ hcount)]
      exact ⟨fun h => h.perm hperm, fun h => h.perm hperm.symm⟩
  · have h := (merge_ok hvalid).mp hmerge
    exact ⟨validate_ok.mpr h.valid, h.runs ▸ sortBy_perm _ _, h.valid.runs.2,
      h.metrics ▸ sortBy_perm _ _, metrics_increasing h.valid.metrics.2⟩
  · exact hnone fun merged h => (h.perm hperm).not_conflicts hconflict

end Union

local instance byteValues : NeZero 256 := ⟨by decide⟩

def oneRun (run hits : ℕ) : Contents where
  fingerprint := ⟨databaseSchema, databaseModel, Vector.replicate 32 1⟩
  sources := [⟨⟨0, 1⟩, [97], 10, Vector.replicate 32 2⟩]
  runs := [⟨⟨0, run⟩, [98], [99], 0, 5, 0, .complete⟩]
  metrics :=
    [⟨.code, .statement, .source, ⟨0, 7⟩, ⟨0, 1⟩, ⟨0, 0⟩, ⟨0, run⟩, hits, 0,
      false, false, 3⟩]
  exclusions := []

def smallLimits : MergeLimits := ⟨⟨4, 4, 4, 4, 8, 8, 8, 8, 64, 100⟩, 4⟩

theorem oneRun_merge_comm :
    (∀ c ∈ [oneRun 2 1, oneRun 1 4], validate smallLimits.model c = .ok ()) ∧
      (merge smallLimits [oneRun 1 4, oneRun 2 1]).toOption =
        (merge smallLimits [oneRun 2 1, oneRun 1 4]).toOption ∧
      (merge smallLimits [oneRun 2 1, oneRun 1 4]).toOption.map (·.runs.length) = some 2 := by
  have hvalid : ∀ c ∈ [oneRun 2 1, oneRun 1 4], validate smallLimits.model c = .ok () := by
    decide +kernel
  exact ⟨hvalid, (merge_multiset smallLimits _ hvalid).1 _ (.swap ..), by decide +kernel⟩

end FsimRuntime.Coverage

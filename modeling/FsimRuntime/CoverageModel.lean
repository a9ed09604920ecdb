import FsimRuntime.KeyedSort
import FsimRuntime.Refusal

/-!
# Coverage database contents

The records of a coverage database, their canonical order and
`validate_impl` (`coverage_database_model.cpp`). Texts and paths are byte
lists; the enumerations have no value outside the declared ones.
-/

namespace FsimRuntime.Coverage

open KeyedSort Nat

abbrev Text := List (Fin 256)

abbrev Digest := Vector (Fin 256) 32

def maximum : ℕ := 2 ^ 64 - 1

structure Identity where
  high : ℕ
  low : ℕ
  deriving DecidableEq, Repr

namespace Identity

def key (identity : Identity) : ℕ ×ₗ ℕ := toLex (identity.high, identity.low)

theorem key_injective : Function.Injective key := by
  rintro ⟨h, l⟩ ⟨h', l'⟩ he
  cases he
  rfl

instance : LinearOrder Identity := LinearOrder.lift' key key_injective

def isValid (identity : Identity) : Bool := identity.high ≠ 0 || identity.low ≠ 0

def isEmpty (identity : Identity) : Bool := identity.high = 0 && identity.low = 0

end Identity

inductive Namespace
  | code
  | systemVerilogFunctional
  | psl
  deriving DecidableEq, Repr

inductive RunStatus
  | complete
  | stopped
  | failed
  deriving DecidableEq, Repr

inductive MetricFamily
  | statement
  | branch
  | line
  | condition
  | expression
  | toggle
  | fsmState
  | fsmTransition
  | systemVerilogCoverpoint
  | systemVerilogCross
  | pslDirective
  | pslProperty
  deriving DecidableEq, Repr

inductive MetricScope
  | source
  | perInstance
  deriving DecidableEq, Repr

def Namespace.value : Namespace → ℕ
  | code => 1
  | systemVerilogFunctional => 2
  | psl => 3

def MetricFamily.value : MetricFamily → ℕ
  | statement => 1
  | branch => 2
  | line => 3
  | condition => 4
  | expression => 5
  | toggle => 6
  | fsmState => 7
  | fsmTransition => 8
  | systemVerilogCoverpoint => 9
  | systemVerilogCross => 10
  | pslDirective => 11
  | pslProperty => 12

def MetricScope.value : MetricScope → ℕ
  | .source => 1
  | .perInstance => 2

structure Fingerprint where
  schema : ℕ
  model : Text
  digest : Digest
  deriving DecidableEq, Repr

structure SourceRecord where
  identity : Identity
  logicalPath : Text
  contentBytes : ℕ
  contentDigest : Digest
  deriving DecidableEq, Repr

structure RunRecord where
  identity : Identity
  label : Text
  producer : Text
  seed : ℕ
  finalTick : ℕ
  finalDelta : ℕ
  status : RunStatus
  deriving DecidableEq, Repr

structure MetricRecord where
  nameSpace : Namespace
  family : MetricFamily
  scope : MetricScope
  binIdentity : Identity
  sourceIdentity : Identity
  instanceIdentity : Identity
  runIdentity : Identity
  hits : ℕ
  excludedHits : ℕ
  overflow : Bool
  excludedOverflow : Bool
  sourceLine : ℕ
  deriving DecidableEq, Repr

structure ExclusionRecord where
  nameSpace : Namespace
  family : MetricFamily
  scope : MetricScope
  pointIdentity : Identity
  sourceIdentity : Identity
  instanceIdentity : Identity
  reason : Text
  sourceLine : ℕ
  deriving DecidableEq, Repr

structure Contents where
  fingerprint : Fingerprint
  sources : List SourceRecord
  runs : List RunRecord
  metrics : List MetricRecord
  exclusions : List ExclusionRecord
  deriving DecidableEq, Repr

structure ModelLimits where
  maximumSources : ℕ
  maximumRuns : ℕ
  maximumMetrics : ℕ
  maximumExclusions : ℕ
  maximumLogicalPathBytes : ℕ
  maximumLabelBytes : ℕ
  maximumProducerBytes : ℕ
  maximumReasonBytes : ℕ
  maximumTextBytes : ℕ
  maximumSourceLine : ℕ
  deriving Repr

inductive ModelError
  | resourceLimit
  | arithmeticOverflow
  | allocationFailure
  | invalidFingerprint
  | invalidSource
  | duplicateSource
  | invalidRun
  | duplicateRun
  | invalidNamespace
  | invalidMetricFamily
  | invalidMetricScope
  | invalidMetric
  | duplicateMetric
  | invalidExclusion
  | duplicateExclusion
  | nonCanonicalOrder
  deriving DecidableEq, Repr

structure Failure where
  error : ModelError
  index : ℕ
  deriving DecidableEq, Repr

def digestPresent (digest : Digest) : Bool := digest.toList.any (· ≠ 0)

def validPairing (nameSpace : Namespace) (family : MetricFamily) : Bool :=
  match nameSpace with
  | .code => MetricFamily.statement.value ≤ family.value &&
      family.value ≤ MetricFamily.fsmTransition.value
  | .systemVerilogFunctional => family = .systemVerilogCoverpoint || family = .systemVerilogCross
  | .psl => family = .pslDirective || family = .pslProperty

def validText (text : Text) : Bool := !text.contains 0

def hasDrivePrefix : Text → Bool
  | letter :: second :: _ =>
    ((65 ≤ letter && letter ≤ 90) || (97 ≤ letter && letter ≤ 122)) && second = 58
  | _ => false

/-- Relative, without a drive, a backslash, or an empty, `.` or `..` component. -/
def validLogicalPath (path : Text) : Bool :=
  path ≠ [] && path.head? ≠ some 47 && path.getLast? ≠ some 47 && !hasDrivePrefix path &&
    !path.contains 92 && validText path &&
      (path.splitOn 47).all fun component =>
        component ≠ [] && component ≠ [46] && component ≠ [46, 46]

/-- The scope agrees with the instance identity. -/
def validScope (scope : MetricScope) (instanceIdentity : Identity) : Bool :=
  match scope with
  | .source => instanceIdentity.isEmpty
  | .perInstance => instanceIdentity.isValid

def databaseSchema : ℕ := 3

def databaseModel : Text :=
  "fsim-unified-coverage-database-v3".toList.map fun c => Fin.ofNat 256 c.toNat

abbrev PointKey := ℕ ×ₗ ℕ ×ₗ ℕ ×ₗ Identity ×ₗ Identity ×ₗ Identity

def MetricRecord.pointKey (record : MetricRecord) : PointKey :=
  toLex (record.nameSpace.value, toLex (record.family.value, toLex (record.scope.value,
    toLex (record.sourceIdentity, toLex (record.instanceIdentity, record.binIdentity)))))

def MetricRecord.key (record : MetricRecord) : PointKey ×ₗ Identity :=
  toLex (record.pointKey, record.runIdentity)

def ExclusionRecord.pointKey (record : ExclusionRecord) : PointKey :=
  toLex (record.nameSpace.value, toLex (record.family.value, toLex (record.scope.value,
    toLex (record.sourceIdentity, toLex (record.instanceIdentity, record.pointIdentity)))))

def ExclusionRecord.key (record : ExclusionRecord) : PointKey ×ₗ Text :=
  toLex (record.pointKey, record.reason)

section Validation

variable {α : Type*}

/-- One loop of `validate_impl`: `check` sees the text bytes so far, the record before and the
record, and adds the record's text. -/
def scan (check : ℕ → Option α → α → Except ModelError ℕ) :
    ℕ → Option α → ℕ → List α → Except Failure ℕ
  | _, _, text, [] => .ok text
  | index, previous, text, record :: records =>
    match check text previous record with
    | .error error => .error ⟨error, index⟩
    | .ok text => scan check (index + 1) (some record) text records

def checkedTextAdd (total amount : ℕ) : Except ModelError ℕ :=
  if maximum - total < amount then .error .arithmeticOverflow else .ok (total + amount)

def checkOrder {β : Type*} [LinearOrder β] (key : α → β) (duplicate : ModelError)
    (previous : Option α) (record : α) : Except ModelError Unit :=
  match previous with
  | none => .ok ()
  | some before =>
    if key before < key record then .ok ()
    else if key before = key record then .error duplicate else .error .nonCanonicalOrder

variable (limits : ModelLimits) (contents : Contents)

def checkSource (text : ℕ) (previous : Option SourceRecord) (source : SourceRecord) :
    Except ModelError ℕ := do
  refuse (!source.identity.isValid || !validLogicalPath source.logicalPath ||
    limits.maximumLogicalPathBytes < source.logicalPath.length ||
    !digestPresent source.contentDigest) .invalidSource
  let text ← checkedTextAdd text source.logicalPath.length
  checkOrder SourceRecord.identity .duplicateSource previous source
  return text

def checkRun (text : ℕ) (previous : Option RunRecord) (run : RunRecord) :
    Except ModelError ℕ := do
  refuse (!run.identity.isValid || run.label = [] || run.producer = [] || !validText run.label ||
    !validText run.producer || limits.maximumLabelBytes < run.label.length ||
    limits.maximumProducerBytes < run.producer.length) .invalidRun
  let text ← checkedTextAdd text run.label.length
  let text ← checkedTextAdd text run.producer.length
  checkOrder RunRecord.identity .duplicateRun previous run
  return text

/-- A binary search of the sources, which are in order. -/
def hasSource (identity : Identity) : Bool := contents.sources.any (·.identity = identity)

def hasRun (identity : Identity) : Bool := contents.runs.any (·.identity = identity)

def validMetric (metric : MetricRecord) : Bool :=
  metric.binIdentity.isValid && metric.sourceIdentity.isValid && metric.runIdentity.isValid &&
    hasSource contents metric.sourceIdentity && hasRun contents metric.runIdentity &&
    metric.sourceLine ≤ limits.maximumSourceLine && (!metric.overflow || metric.hits = maximum) &&
    (!metric.excludedOverflow || metric.excludedHits = maximum)

def checkMetric (text : ℕ) (previous : Option MetricRecord) (metric : MetricRecord) :
    Except ModelError ℕ := do
  refuse (!validPairing metric.nameSpace metric.family) .invalidMetricFamily
  refuse (!validScope metric.scope metric.instanceIdentity) .invalidMetricScope
  refuse (!validMetric limits contents metric) .invalidMetric
  refuse (previous.any fun before =>
    before.pointKey = metric.pointKey && before.sourceLine ≠ metric.sourceLine) .invalidMetric
  checkOrder MetricRecord.key .duplicateMetric previous metric
  return text

def validExclusion (exclusion : ExclusionRecord) : Bool :=
  exclusion.pointIdentity.isValid && exclusion.sourceIdentity.isValid &&
    hasSource contents exclusion.sourceIdentity && exclusion.reason ≠ [] &&
    validText exclusion.reason && exclusion.sourceLine ≤ limits.maximumSourceLine &&
    exclusion.reason.length ≤ limits.maximumReasonBytes

def checkExclusion (text : ℕ) (previous : Option ExclusionRecord) (exclusion : ExclusionRecord) :
    Except ModelError ℕ := do
  refuse (!validPairing exclusion.nameSpace exclusion.family) .invalidMetricFamily
  refuse (!validScope exclusion.scope exclusion.instanceIdentity) .invalidMetricScope
  refuse (!validExclusion limits contents exclusion) .invalidExclusion
  let text ← checkedTextAdd text exclusion.reason.length
  refuse (limits.maximumTextBytes < text) .resourceLimit
  refuse (previous.any fun before =>
    before.pointKey = exclusion.pointKey && before.sourceLine ≠ exclusion.sourceLine)
    .invalidExclusion
  checkOrder ExclusionRecord.key .duplicateExclusion previous exclusion
  return text

def validate : Except Failure Unit := do
  refuse (limits.maximumSources < contents.sources.length ||
    limits.maximumRuns < contents.runs.length || limits.maximumMetrics < contents.metrics.length ||
    limits.maximumExclusions < contents.exclusions.length) ⟨.resourceLimit, 0⟩
  refuse (contents.fingerprint.schema ≠ databaseSchema ||
    contents.fingerprint.model ≠ databaseModel || !digestPresent contents.fingerprint.digest)
    ⟨.invalidFingerprint, 0⟩
  let text ← scan (checkSource limits) 0 none 0 contents.sources
  let text ← scan (checkRun limits) 0 none text contents.runs
  refuse (limits.maximumTextBytes < text) ⟨.resourceLimit, 0⟩
  let text ← scan (checkMetric limits contents) 0 none text contents.metrics
  let _ ← scan (checkExclusion limits contents) 0 none text contents.exclusions

def Contents.canonical : Contents :=
  { contents with
    sources := sortBy SourceRecord.identity contents.sources
    runs := sortBy RunRecord.identity contents.runs
    metrics := sortBy MetricRecord.key contents.metrics
    exclusions := sortBy ExclusionRecord.key contents.exclusions }

/-- `make_coverage_database_contents`: the canonical order, then the validation. -/
def makeContents : Except Failure Contents := do
  let contents := contents.canonical
  validate limits contents
  return contents

end Validation

section Specification

variable {α : Type*} {limits : ModelLimits} {contents : Contents} {p : Option α}

theorem checkedTextAdd_ok {total a text : ℕ} (h : total ≤ maximum) :
    checkedTextAdd total a = .ok text ↔ text = total + a ∧ text ≤ maximum := by
  rw [checkedTextAdd]
  split
  · constructor
    · nofun
    · omega
  · simp only [Except.ok.injEq]
    omega

theorem checkOrder_ok {β : Type*} [LinearOrder β] {key : α → β} {d : ModelError} {r : α}
    {u : Unit} : checkOrder key d p r = .ok u ↔ ∀ b ∈ p, key b < key r := by
  cases p with
  | none => simp [checkOrder]
  | some b =>
    simp only [checkOrder]
    split_ifs <;> simp_all

structure Checks (check : ℕ → Option α → α → Except ModelError ℕ) (size : α → ℕ)
    (bound : ℕ → Prop) (Ok : α → Prop) (Link : α → α → Prop) : Prop where
  iff : ∀ {text text' previous record}, bound text → (check text previous record = .ok text' ↔
    text' = text + size record ∧ bound text' ∧ Ok record ∧
    ∀ before ∈ previous, Link before record)
  mono : ∀ {n m}, n ≤ m → bound m → bound n

theorem Checks.scan_ok {check : ℕ → Option α → α → Except ModelError ℕ}
    {size : α → ℕ} {b : ℕ → Prop} {Ok : α → Prop} {Link : α → α → Prop}
    (h : Checks check size b Ok Link) {r : List α} {index text t' : ℕ} (ht : b text) :
    scan check index p text r = .ok t' ↔
      t' = text + (r.map size).sum ∧ b t' ∧ (∀ record ∈ r, Ok record) ∧
      (p.toList ++ r).IsChain Link := by
  induction r generalizing index p text with
  | nil =>
    have hch : p.toList.IsChain Link := by cases p <;> simp
    simp only [scan, Except.ok.injEq, List.append_nil]
    constructor
    · rintro rfl
      exact ⟨rfl, ht, nofun, hch⟩
    · rintro ⟨rfl, -⟩
      rfl
  | cons record r ih =>
    have hli : (p.toList ++ record :: r).IsChain Link ↔
        (∀ before ∈ p, Link before record) ∧ (record :: r).IsChain Link := by
      cases p <;> simp
    rw [hli, scan]
    cases hc : check text p record with
    | error =>
      simp only [reduceCtorEq, false_iff]
      rintro ⟨rfl, hb, ho, hl, -⟩
      have hle : text + size record ≤ text + ((record :: r).map size).sum := by simp
      have hp := (h.iff ht).mpr ⟨rfl, h.mono hle hb, ho record (by simp), hl⟩
      rw [hc] at hp
      cases hp
    | ok m =>
      obtain ⟨rfl, hb, ho, hl⟩ := (h.iff ht).mp hc
      rw [ih hb]
      simp only [Option.toList_some, List.singleton_append, List.map_cons, List.sum_cons,
        add_assoc, List.forall_mem_cons, and_iff_right ho, and_iff_right hl]

structure SourceRecord.Ok (limits : ModelLimits) (source : SourceRecord) : Prop where
  identity : source.identity.isValid
  path : validLogicalPath source.logicalPath
  length : source.logicalPath.length ≤ limits.maximumLogicalPathBytes
  digest : digestPresent source.contentDigest

structure RunRecord.Ok (limits : ModelLimits) (run : RunRecord) : Prop where
  identity : run.identity.isValid
  label : run.label ≠ [] ∧ validText run.label ∧ run.label.length ≤ limits.maximumLabelBytes
  producer : run.producer ≠ [] ∧ validText run.producer ∧
    run.producer.length ≤ limits.maximumProducerBytes

structure MetricRecord.Ok (limits : ModelLimits) (contents : Contents) (metric : MetricRecord) :
    Prop where
  family : validPairing metric.nameSpace metric.family
  scope : validScope metric.scope metric.instanceIdentity
  metric : validMetric limits contents metric

structure ExclusionRecord.Ok (limits : ModelLimits) (contents : Contents)
    (exclusion : ExclusionRecord) : Prop where
  family : validPairing exclusion.nameSpace exclusion.family
  scope : validScope exclusion.scope exclusion.instanceIdentity
  exclusion : validExclusion limits contents exclusion

def MetricRecord.Link (before metric : MetricRecord) : Prop :=
  (before.pointKey = metric.pointKey → before.sourceLine = metric.sourceLine) ∧
    before.key < metric.key

def ExclusionRecord.Link (before exclusion : ExclusionRecord) : Prop :=
  (before.pointKey = exclusion.pointKey → before.sourceLine = exclusion.sourceLine) ∧
    before.key < exclusion.key

def RunRecord.text (run : RunRecord) : ℕ := run.label.length + run.producer.length

def Contents.text (contents : Contents) : ℕ :=
  (contents.sources.map (·.logicalPath.length)).sum + (contents.runs.map RunRecord.text).sum +
    (contents.exclusions.map (·.reason.length)).sum

theorem checkSource_checks : Checks (checkSource limits) (·.logicalPath.length) (· ≤ maximum)
    (SourceRecord.Ok limits) (·.identity < ·.identity) := by
  refine ⟨fun {text text' previous source} ht => ?_, le_trans⟩
  simp only [checkSource, bind_ok, refuse_ok, checkedTextAdd_ok ht, checkOrder_ok, pure,
    Except.pure, Except.ok.injEq, exists_const, Bool.or_eq_false_iff, Bool.not_eq_false',
    decide_eq_false_iff_not, not_lt]
  constructor
  · rintro ⟨⟨⟨⟨hid, hp⟩, hl⟩, hd⟩, _, ⟨rfl, hle⟩, ho, rfl⟩
    exact ⟨rfl, hle, ⟨hid, hp, hl, hd⟩, ho⟩
  · rintro ⟨rfl, hle, ⟨hid, hp, hl, hd⟩, ho⟩
    exact ⟨⟨⟨⟨hid, hp⟩, hl⟩, hd⟩, _, ⟨rfl, hle⟩, ho, rfl⟩

theorem checkRun_checks : Checks (checkRun limits) RunRecord.text (· ≤ maximum)
    (RunRecord.Ok limits) (·.identity < ·.identity) := by
  refine ⟨fun {text text' previous run} ht => ?_, le_trans⟩
  simp only [checkRun, bind_ok, refuse_ok, checkedTextAdd_ok ht, checkOrder_ok, pure,
    Except.pure, Except.ok.injEq, exists_const, Bool.or_eq_false_iff, Bool.not_eq_false',
    decide_eq_false_iff_not, not_lt]
  constructor
  · rintro ⟨⟨⟨⟨⟨⟨⟨hid, hla⟩, hpr⟩, hlt⟩, hpt⟩, hl⟩,
      hp⟩, _, ⟨rfl, hle⟩, _, ha, ho, rfl⟩
    obtain ⟨rfl, hl'⟩ := (checkedTextAdd_ok hle).mp ha
    exact ⟨add_assoc .., hl', ⟨hid, ⟨hla, hlt, hl⟩, ⟨hpr, hpt, hp⟩⟩, ho⟩
  · rintro ⟨rfl, hle, ⟨hid, ⟨hla, hlt, hl⟩, ⟨hpr, hpt, hp⟩⟩, ho⟩
    rw [RunRecord.text, ← add_assoc] at hle ⊢
    have hl' : text + run.label.length ≤ maximum := (le_add_right ..).trans hle
    exact ⟨⟨⟨⟨⟨⟨⟨hid, hla⟩, hpr⟩, hlt⟩, hpt⟩, hl⟩,
      hp⟩, _, ⟨rfl, hl'⟩, _, (checkedTextAdd_ok hl').mpr ⟨rfl, hle⟩, ho, rfl⟩

theorem checkMetric_checks : Checks (checkMetric limits contents) (fun _ => 0) (fun _ => True)
    (MetricRecord.Ok limits contents) MetricRecord.Link := by
  refine ⟨fun {text text' previous metric} _ => ?_, fun _ => id⟩
  have hli : (previous.any fun b => b.pointKey = metric.pointKey &&
      b.sourceLine ≠ metric.sourceLine) = false ↔ ∀ b ∈ previous,
        b.pointKey = metric.pointKey → b.sourceLine = metric.sourceLine := by
    cases previous <;> simp
  simp only [checkMetric, bind_ok, refuse_ok, checkOrder_ok, pure, Except.pure, Except.ok.injEq,
    exists_const, Bool.not_eq_false', hli]
  constructor
  · rintro ⟨hf, hs, hm, hln, ho, rfl⟩
    exact ⟨rfl, trivial, ⟨hf, hs, hm⟩, fun b hb => ⟨hln b hb, ho b hb⟩⟩
  · rintro ⟨rfl, -, ⟨hf, hs, hm⟩, hl⟩
    exact ⟨hf, hs, hm, fun b hb => (hl b hb).1, fun b hb => (hl b hb).2, rfl⟩

theorem checkExclusion_checks : Checks (checkExclusion limits contents) (·.reason.length)
    (fun text => text ≤ maximum ∧ text ≤ limits.maximumTextBytes)
    (ExclusionRecord.Ok limits contents) ExclusionRecord.Link := by
  refine ⟨fun {text text' previous exclusion} ht => ?_,
    fun hle h => ⟨hle.trans h.1, hle.trans h.2⟩⟩
  have hln : (previous.any fun b => b.pointKey = exclusion.pointKey &&
      b.sourceLine ≠ exclusion.sourceLine) = false ↔ ∀ b ∈ previous,
        b.pointKey = exclusion.pointKey → b.sourceLine = exclusion.sourceLine := by
    cases previous <;> simp
  simp only [checkExclusion, bind_ok, refuse_ok, checkOrder_ok, checkedTextAdd_ok ht.1, pure,
    Except.pure, Except.ok.injEq, exists_const, Bool.not_eq_false', decide_eq_false_iff_not, not_lt,
    hln]
  constructor
  · rintro ⟨hf, hs, he, _, ⟨rfl, hle⟩, hl, hlin, ho, rfl⟩
    exact ⟨rfl, ⟨hle, hl⟩, ⟨hf, hs, he⟩, fun b hb => ⟨hlin b hb, ho b hb⟩⟩
  · rintro ⟨rfl, ⟨hle, hl⟩, ⟨hf, hs, he⟩, hli⟩
    exact ⟨hf, hs, he, _, ⟨rfl, hle⟩, hl, fun b hb => (hli b hb).1,
      fun b hb => (hli b hb).2, rfl⟩

/-- What `validate_impl` accepts. -/
structure Contents.Valid (limits : ModelLimits) (contents : Contents) : Prop where
  counts : contents.sources.length ≤ limits.maximumSources ∧
    contents.runs.length ≤ limits.maximumRuns ∧
    contents.metrics.length ≤ limits.maximumMetrics ∧
      contents.exclusions.length ≤ limits.maximumExclusions
  fingerprint : contents.fingerprint.schema = databaseSchema ∧
    contents.fingerprint.model = databaseModel ∧ digestPresent contents.fingerprint.digest
  text : contents.text ≤ maximum ∧ contents.text ≤ limits.maximumTextBytes
  sources : (∀ source ∈ contents.sources, source.Ok limits) ∧
    Increasing SourceRecord.identity contents.sources
  runs : (∀ run ∈ contents.runs, run.Ok limits) ∧ Increasing RunRecord.identity contents.runs
  metrics : (∀ metric ∈ contents.metrics, metric.Ok limits contents) ∧
    contents.metrics.IsChain MetricRecord.Link
  exclusions : (∀ exclusion ∈ contents.exclusions, exclusion.Ok limits contents) ∧
    contents.exclusions.IsChain ExclusionRecord.Link

theorem validate_ok : validate limits contents = .ok () ↔ contents.Valid limits := by
  have hz : (contents.metrics.map fun _ => 0).sum = 0 := by simp
  simp only [validate, bind_ok, refuse_ok, pure, Except.pure, exists_const, Bool.or_eq_false_iff,
    Bool.not_eq_false', decide_eq_false_iff_not, not_lt, not_not]
  constructor
  · rintro ⟨⟨⟨⟨hsr, hru⟩, hme⟩, hexc⟩, ⟨⟨hsc, hmo⟩, hd⟩, st,
      hs, runText, hr, hl, metricText, hm, exclusionText, he, -⟩
    obtain ⟨rfl, hle, hsou, hso⟩ := (checkSource_checks.scan_ok (zero_le _)).mp hs
    obtain ⟨rfl, hle, hrn, hro⟩ := (checkRun_checks.scan_ok hle).mp hr
    obtain ⟨rfl, -, hmt⟩ := (checkMetric_checks.scan_ok trivial).mp hm
    rw [hz] at he
    obtain ⟨rfl, ht, hexcl⟩ := (checkExclusion_checks.scan_ok ⟨hle, hl⟩).mp he
    rw [zero_add] at ht
    exact ⟨⟨hsr, hru, hme, hexc⟩, ⟨hsc, hmo, hd⟩, ht,
      ⟨hsou, increasing_iff_isChain.mpr hso⟩,
      ⟨hrn, increasing_iff_isChain.mpr hro⟩, hmt, hexcl⟩
  · rintro ⟨⟨hsr, hru, hme, hexc⟩, ⟨hsc, hmo, hd⟩, ht,
      ⟨hsou, hso⟩, ⟨hrn, hro⟩, hmt, hexcl⟩
    have hst := (le_add_right ..).trans ((le_add_right ..).trans ht.1)
    have hrt := (le_add_right ..).trans ht.1
    refine ⟨⟨⟨⟨hsr, hru⟩, hme⟩, hexc⟩, ⟨⟨hsc, hmo⟩, hd⟩, _,
      (checkSource_checks.scan_ok (zero_le _)).mpr ⟨(zero_add _).symm, hst, hsou,
        increasing_iff_isChain.mp hso⟩, _,
      (checkRun_checks.scan_ok hst).mpr ⟨rfl, hrt, hrn,
        increasing_iff_isChain.mp hro⟩, (le_add_right ..).trans ht.2, _,
      (checkMetric_checks.scan_ok trivial).mpr ⟨rfl, trivial, hmt⟩, ?_⟩
    rw [hz]
    exact ⟨_, (checkExclusion_checks.scan_ok ⟨hrt, (le_add_right ..).trans ht.2⟩).mpr
      ⟨rfl, ht, hexcl⟩, trivial⟩

end Specification

end FsimRuntime.Coverage

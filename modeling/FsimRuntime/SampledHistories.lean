import FsimRuntime.SampledModel

/-!
# Sampled reads see the clocked samples

The time steps of a run, each with the values at its start and the edges in it,
decide the samples of a clock; the histories keep the last of them, and every
read returns what its function says about them.
-/

namespace FsimRuntime.Sampled

open RingHistory Simir List Function

inductive Edge
  | change (before after : Value)
  | trigger

structure TimeStep where
  sampled : ℕ → Value
  edges : List (ℕ × Edge)

structure Timeline where
  past : List TimeStep
  current : TimeStep

def Timeline.steps (timeline : Timeline) : List TimeStep := timeline.past ++ [timeline.current]

def Timeline.mark (timeline : Timeline) (signal : ℕ) (edge : Edge) : Timeline :=
  ⟨timeline.past, ⟨timeline.current.sampled, timeline.current.edges ++ [(signal, edge)]⟩⟩

def ClockEdge.selects (edge : ClockEdge) : Edge → Bool
  | .change before after => edge = .any || edge.matches (lsb before) (lsb after)
  | .trigger => edge = .any

def TimeStep.ticks (step : TimeStep) (key : Key) : Bool :=
  (step.edges.any fun edge => key.clock = some edge.1 && key.edge.selects edge.2) &&
    gateOpen step.sampled key.gate

def samplesIn (key : Key) (steps : List TimeStep) : List Value :=
  (steps.filter (·.ticks key)).map fun step => step.sampled key.signal

def expected (design : Design) (read : Read) (timeline : Timeline) : Value :=
  let nthLast (samples : List Value) (n : ℕ) : Value :=
    samples.reverse[n]?.getD (design.default read.signal)
  let all := samplesIn read.key timeline.steps
  match read.kind with
  | .sampled => nthLast all 0
  | .past => nthLast (samplesIn read.key timeline.past) (read.ticks - 1)
  | kind => compare kind (nthLast all 0) (nthLast all 1)

def Timeline.after (timeline : Timeline) (state : State) : Action → Timeline
  | .slot _ => ⟨timeline.steps, ⟨state.value, []⟩⟩
  | .change signal value _ =>
    if state.value signal = value then timeline
    else timeline.mark signal (.change (state.value signal) value)
  | .trigger event _ => timeline.mark event .trigger
  | _ => timeline

/-- What the rest of the interpreter does: time grows, signals keep their widths, and only the reads
of the processes run. -/
def Legal (design : Design) (state : State) : Action → Prop
  | .slot time => state.now < time
  | .nextDelta => True
  | .change signal value _ => design.isEvent signal = false ∧
      value.length = (design.default signal).length
  | .trigger event _ => design.isEvent event = true
  | .read read => read ∈ design.reads

def SparesClocks (design : Design) : Action → Prop
  | .trigger event _ => ∀ read ∈ design.reads, read.clock ≠ some event
  | _ => True

inductive Run (design : Design) (allowed : Action → Prop) : State → Timeline → Prop
  | start : Run design allowed design.start ⟨[], ⟨design.default, []⟩⟩
  | act {state state' : State} {timeline : Timeline} {action : Action} :
      Run design allowed state timeline →
      Legal design state action → allowed action → step design state action = .ok state' →
      Run design allowed state' (timeline.after state action)

variable {design : Design} {state state' : State} {timeline : Timeline} {key : Key}
  {history : History} {read : Read} {c now : ℕ}

theorem sampledHistoryCapacity_pos (read : Read) : 0 < sampledHistoryCapacity read := by
  unfold sampledHistoryCapacity maximumRetainedSamples
  split
  · split_ifs <;> omega
  all_goals omega

theorem mem_keysByClock : key ∈ design.keysByClock c ↔ key.clock = some c ∧
    ∃ read ∈ design.indexed, read.key = key := by
  rw [Design.keysByClock, mem_dedup, mem_filter, mem_map, decide_eq_true_iff, and_comm]

structure Recorded (design : Design) (now : ℕ) (timeline : Timeline) (key : Key)
    (history : History) : Prop where
  keeps : history.ring.Keeps (samplesIn key timeline.steps)
  shape : ∀ value ∈ history.ring.values, value.length = (design.default key.signal).length
  slot : history.lastSlot = some now ↔ timeline.current.ticks key = true
  before : ∀ time, history.lastSlot = some time → time ≤ now
  capacity : ∀ read ∈ design.indexed, read.key = key →
    sampledHistoryCapacity read ≤ history.ring.capacity

theorem samplesIn_steps (key : Key) (timeline : Timeline) : samplesIn key timeline.steps =
    samplesIn key timeline.past ++
      if timeline.current.ticks key then [timeline.current.sampled key.signal] else [] := by
  rw [Timeline.steps, samplesIn, samplesIn, filter_append]
  cases ht : timeline.current.ticks key with
  | true | false => simp [ht]

variable {e : Edge} {d : ℕ} {value : Value} {s : Bool}

theorem ticks_mark : (timeline.mark c e).current.ticks key =
    (timeline.current.ticks key || (key.clock = some c && key.edge.selects e
      && gateOpen timeline.current.sampled key.gate)) := by
  simp only [Timeline.mark, TimeStep.ticks]
  cases gateOpen timeline.current.sampled key.gate <;> simp

theorem Recorded.mark_same (h : Recorded design now timeline key history)
    (hs : (timeline.mark c e).current.ticks key = timeline.current.ticks key) :
    Recorded design now (timeline.mark c e) key history := by
  refine { h with keeps := ?_, slot := by rw [hs]; exact h.slot }
  rw [samplesIn_steps, hs]
  exact samplesIn_steps key timeline ▸ h.keeps

theorem Recorded.mark_append (h : Recorded design now timeline key history)
    (hn : timeline.current.ticks key = false) (ht : (timeline.mark c e).current.ticks key = true)
    (hw : (timeline.current.sampled key.signal).length = (design.default key.signal).length) :
    ∃ hi', append history now (timeline.current.sampled key.signal) = .ok hi' ∧
      Recorded design now (timeline.mark c e) key hi' := by
  have hf := h.keeps.first
  refine ⟨⟨history.ring.push (timeline.current.sampled key.signal), some now⟩, ?_, ?_,
    fun value hv => ?_, by simp [ht],
    fun t hti => (Option.some.inj hti).ge, fun read hr hke => ?_⟩
  · have hp : history.ring.place
        (if history.ring.count < history.ring.capacity then history.ring.count else 0)
        < history.ring.values.length := RingBuffer.place_lt hf
    have hs := h.shape _ (getElem_mem hp)
    rw [append, if_neg (by omega), if_neg]
    rw [getD_eq_getElem?_getD, getElem?_eq_getElem hp, Option.getD_some, hs, hw]
    exact fun hne => hne rfl
  · have hk := h.keeps
    rw [samplesIn_steps, hn] at hk
    rw [samplesIn_steps, ht]
    simpa [Timeline.mark] using hk.push
  · rcases RingBuffer.mem_push hv with hv | rfl
    · exact h.shape value hv
    · exact hw
  · exact (h.capacity read hr hke).trans RingBuffer.capacity_push.ge

variable {histories : Histories}

def AllRecorded (design : Design) (now : ℕ) (timeline : Timeline) (keys : List Key)
    (histories : Histories) : Prop :=
  ∀ key ∈ keys, ∃ history, histories key = some history ∧
    Recorded design now timeline key history

theorem captureKey_ok (hc : key.clock = some c) (hsa : timeline.current.sampled = state.sampled)
    (hw : (state.sampled key.signal).length = (design.default key.signal).length)
    (h : AllRecorded design state.now timeline [key] histories) :
    ∃ hi', captureKey state c histories key = .ok hi' ∧
      AllRecorded design state.now (timeline.mark c (.change (state.lastValue c) (state.value c)))
      [key] hi' ∧
      ∀ o, o ≠ key → hi' o = histories o := by
  obtain ⟨history, hh, hr⟩ := h key (mem_singleton_self _)
  have ht := @ticks_mark timeline key c (.change (state.lastValue c) (state.value c))
  rw [hc, decide_eq_true rfl, Bool.true_and, ClockEdge.selects, hsa] at ht
  unfold captureKey
  split_ifs with hs
  · refine ⟨histories, rfl, forall_mem_singleton.mpr ⟨history, hh, hr.mark_same ?_⟩,
      fun _ _ => rfl⟩
    rw [Bool.or_eq_true, Bool.not_eq_true', Bool.not_eq_true'] at hs
    rcases hs with hs | hs <;> rw [ht, hs] <;> simp
  · have hn : (timeline.mark c (.change (state.lastValue c) (state.value c))).current.ticks key =
        true := by
      rw [Bool.or_eq_true, Bool.not_eq_true', Bool.not_eq_true', not_or, Bool.not_eq_false,
        Bool.not_eq_false] at hs
      rw [ht, hs.1, hs.2, Bool.and_true, Bool.or_true]
    rw [hh]
    dsimp only
    split_ifs with hsl
    · exact ⟨histories, rfl, forall_mem_singleton.mpr
        ⟨history, hh, hr.mark_same (hn.trans (hr.slot.mp hsl).symm)⟩, fun _ _ => rfl⟩
    · have hne : timeline.current.ticks key = false := by simpa using mt hr.slot.mpr hsl
      obtain ⟨his', ha, hr'⟩ := hr.mark_append hne hn (by rw [hsa]; exact hw)
      rw [← hsa, ha]
      exact ⟨_, rfl, forall_mem_singleton.mpr ⟨his', update_self .., hr'⟩,
        fun o ho => update_of_ne ho ..⟩

theorem captureKeys_ok {keys : List Key} (hn : keys.Nodup)
    (hc : ∀ key ∈ keys, key.clock = some c) (hs : timeline.current.sampled = state.sampled)
    (hw : ∀ signal, (state.sampled signal).length = (design.default signal).length)
    (h : AllRecorded design state.now timeline keys histories) :
    ∃ hi', keys.foldlM (captureKey state c) histories = .ok hi' ∧
      AllRecorded design state.now
      (timeline.mark c (.change (state.lastValue c) (state.value c))) keys hi' ∧
      ∀ o, o ∉ keys → hi' o = histories o := by
  induction keys generalizing histories with
  | nil => exact ⟨histories, rfl, nofun, fun _ _ => rfl⟩
  | cons key keys ih =>
    obtain ⟨hf, hn⟩ := nodup_cons.mp hn
    obtain ⟨hi₁, hfi, hr, hot⟩ := captureKey_ok (hc key mem_cons_self) hs
      (hw key.signal) fun o ho => h o (by simp_all)
    have hk : AllRecorded design state.now timeline keys hi₁ := fun o ho => by
      rw [hot o fun he => hf (he ▸ ho)]
      exact h o (mem_cons_of_mem _ ho)
    obtain ⟨hi₂, hre, hr', ho'⟩ := ih hn (fun key hke => hc key (mem_cons_of_mem _ hke)) hk
    refine ⟨hi₂, ?_, fun o ho => ?_, fun o ho => ?_⟩
    · rw [foldlM_cons, hfi]
      exact hre
    · rcases mem_cons.mp ho with rfl | ho
      · rw [ho' o hf]
        exact hr o (mem_singleton_self _)
      · exact hr' o ho
    · rw [mem_cons, not_or] at ho
      rw [ho' o ho.2, hot o ho.1]

/-- What a run keeps. -/
structure Tracks (design : Design) (state : State) (timeline : Timeline) : Prop where
  histories :
    ∀ clock, AllRecorded design state.now timeline (design.keysByClock clock) state.histories
  sampled : timeline.current.sampled = state.sampled
  widths : ∀ signal, (state.value signal).length = (design.default signal).length ∧
    (state.sampled signal).length = (design.default signal).length ∧
    (state.lastValue signal).length = (design.default signal).length
  events : ∀ signal stamp, state.events signal = some stamp → stamp.time ≤ state.now ∧
    (stamp.time = state.now → ∀ read ∈ design.reads, read.clock = some signal →
      (signal, Edge.change (state.lastValue signal) (state.value signal)) ∈
        timeline.current.edges)

theorem tracks_start (design : Design) :
    Tracks design design.start ⟨[], ⟨design.default, []⟩⟩ := by
  refine ⟨fun c key hk => ?_, rfl, fun _ => ⟨rfl, rfl, rfl⟩, nofun⟩
  obtain ⟨-, read, hr, hread_key⟩ := mem_keysByClock.mp hk
  have hm {o : Read} (ho : o ∈ design.indexed) (he : o.key = key) :
      o ∈ design.indexed.filter (·.key = key) := mem_filter.mpr ⟨ho, decide_eq_true he⟩
  have hc {o : Read} (ho : o ∈ design.indexed) (he : o.key = key) : sampledHistoryCapacity o ≤
      ((design.indexed.filter (·.key = key)).map sampledHistoryCapacity).foldr max 0 :=
    le_max_of_le (mem_map_of_mem (hm ho he)) le_rfl
  have ht : TimeStep.ticks ⟨design.default, []⟩ key = false := rfl
  refine ⟨_, if_neg (by simpa using ⟨read, hr, hread_key⟩), ?_, fun value hv =>
    ?_, by simp [ht], nofun, fun o ho he => ?_⟩
  · exact RingBuffer.keeps_nil ((sampledHistoryCapacity_pos read).trans_le (hc hr hread_key))
  · rw [eq_of_mem_replicate hv]
  · exact (hc ho he).trans length_replicate.ge

section
variable (h : Tracks design state timeline)
include h

theorem Tracks.slot {t : ℕ} (hti : state.now < t) :
    Tracks design { state with now := t, delta := 0, sampled := state.value }
      ⟨timeline.steps, ⟨state.value, []⟩⟩ := by
  refine ⟨fun c key hk => ?_, rfl, fun signal =>
    ⟨(h.widths signal).1, (h.widths signal).1, (h.widths signal).2.2⟩, fun signal s hst => ?_⟩
  · obtain ⟨history, hh, hr⟩ := h.histories c key hk
    have ht : TimeStep.ticks ⟨state.value, []⟩ key = false := rfl
    refine ⟨history, hh, ?_, hr.shape, ?_, fun t' hs => ?_, hr.capacity⟩
    · rw [samplesIn_steps, ht]
      simpa using hr.keeps
    · refine ⟨fun hs => ?_, nofun⟩
      exact absurd (hr.before _ hs) (not_le.mpr hti)
    · exact (hr.before _ hs).trans hti.le
  · have := (h.events signal s hst).1
    exact ⟨by dsimp only; omega, fun he => by dsimp only at he; omega⟩

theorem Tracks.change {signal : ℕ}
    (hn : state.value signal ≠ value) (hw : value.length = (design.default signal).length) :
    ∃ state', recordEvent design { state with
        value := update state.value signal value
        lastValue := update state.lastValue signal (state.value signal) } signal d s =
          .ok state' ∧
      Tracks design state' (timeline.mark signal (.change (state.value signal) value)) := by
  have hz : (state.value signal).length ≠ 0 := by
    intro hz
    have he : value.length = 0 := by rw [hw, ← (h.widths signal).1, hz]
    exact hn ((length_eq_zero_iff.mp hz).trans (length_eq_zero_iff.mp he).symm)
  have hz' : value.length ≠ 0 := by rw [hw, ← (h.widths signal).1]; exact hz
  unfold recordEvent captureClock
  simp only [update_self]
  rw [if_neg (by tauto)]
  obtain ⟨histories, hca, hr, hot⟩ := @captureKeys_ok design
    { state with
      value := update state.value signal value
      lastValue := update state.lastValue signal (state.value signal)
      events := update state.events signal (some ⟨state.now, d, s⟩) }
    timeline signal state.histories _ (nodup_dedup _)
      (fun key hk => (mem_keysByClock.mp hk).1) h.sampled
    (fun signal => (h.widths signal).2.1) (h.histories signal)
  simp only [update_self] at hr
  rw [Design.keysByClock, hca]
  refine ⟨_, rfl, fun c key hk => ?_, h.sampled, fun o => ⟨?_, (h.widths o).2.1, ?_⟩,
    fun o st hs => ?_⟩
  · have hc := (mem_keysByClock.mp hk).1
    by_cases hm : key ∈ design.keysByClock signal
    · exact hr key hm
    · obtain ⟨history, hh, hb⟩ := h.histories c key hk
      refine ⟨history, (hot key hm).trans hh, hb.mark_same ?_⟩
      rw [ticks_mark, hc]
      have hne : c ≠ signal := fun heq => hm (heq ▸ hk)
      simp [hne]
  · by_cases ho : o = signal
    · subst ho
      simpa using hw
    · simpa [ho] using (h.widths o).1
  · by_cases ho : o = signal
    · subst ho
      simpa using (h.widths o).1
    · simpa [ho] using (h.widths o).2.2
  · by_cases ho : o = signal
    · subst ho
      simp only [update_self, Option.some.injEq] at hs ⊢
      subst hs
      exact ⟨le_refl _, fun _ _ _ _ => mem_append_right _ (mem_singleton_self _)⟩
    · simp only [update_of_ne ho] at hs ⊢
      obtain ⟨hl, hed⟩ := h.events o st hs
      exact ⟨hl, fun heq read hre hc => mem_append_left _ (hed heq read hre hc)⟩

theorem Tracks.trigger {e : ℕ} (hsp : ∀ read ∈ design.reads, read.clock ≠ some e)
    (ht : recordEvent design state e d s = .ok state') :
    Tracks design state' (timeline.mark e .trigger) := by
  have hke : design.keysByClock e = [] := by
    refine eq_nil_iff_forall_not_mem.mpr fun key hk => ?_
    obtain ⟨hc, read, hr, rfl⟩ := mem_keysByClock.mp hk
    exact hsp read (mem_of_mem_filter hr) hc
  have hst : state' = { state with
      events := update state.events e (some ⟨state.now, d, s⟩) } := by
    unfold recordEvent captureClock at ht
    rw [hke] at ht
    split_ifs at ht <;> cases ht <;> rfl
  subst hst
  refine ⟨fun c key hk => ?_, h.sampled, h.widths, fun o st hs => ?_⟩
  · obtain ⟨history, hh, hre⟩ := h.histories c key hk
    refine ⟨history, hh, hre.mark_same ?_⟩
    have hn : c ≠ e := by
      rintro rfl
      rw [hke] at hk
      cases hk
    rw [ticks_mark, (mem_keysByClock.mp hk).1]
    simp [hn]
  · by_cases ho : o = e
    · subst ho
      simp only [update_self, Option.some.injEq] at hs
      subst hs
      exact ⟨le_refl _, fun _ read hr hc => absurd hc (hsp read hr)⟩
    · simp only [update_of_ne ho] at hs
      obtain ⟨hl, he⟩ := h.events o st hs
      exact ⟨hl, fun heq read hr hc => mem_append_left _ (he heq read hr hc)⟩

theorem Tracks.ticks_of_samples (hr : read ∈ design.reads)
    (hc : read.clock = some c) (hs : samples state read = true) :
    timeline.current.ticks read.key = true := by
  rw [samples, hc, Bool.and_eq_true] at hs
  obtain ⟨he, hg⟩ := hs
  rw [TimeStep.ticks, h.sampled, Bool.and_eq_true]
  refine ⟨?_, hg⟩
  dsimp only at he
  split at he
  · cases he
  · next s hst =>
    rw [Bool.and_eq_true, Bool.and_eq_true] at he
    have hed := (h.events c s hst).2 (by simpa using he.1.1) read hr hc
    refine any_eq_true.mpr ⟨_, hed, ?_⟩
    simpa [Read.key, hc, ClockEdge.selects] using he.2

theorem Tracks.readHistory_eq (hre : read ∈ design.indexed)
    (hc : read.clock = some c) :
    ∃ history, Recorded design state.now timeline read.key history ∧
      readHistory design state read =
        (valueOf design read history (timeline.current.ticks read.key)).map (·, state) := by
  obtain ⟨history, hh, hr⟩ :=
    h.histories c read.key (mem_keysByClock.mpr ⟨hc, read, hre, rfl⟩)
  refine ⟨history, hr, ?_⟩
  have he :
      ensureCapacity history (sampledHistoryCapacity read) (design.default read.signal) = history :=
    if_pos (hr.capacity read hre rfl)
  have hsa : decide (history.lastSlot = some state.now) = timeline.current.ticks read.key := by
    rw [Bool.eq_iff_iff, decide_eq_true_iff]
    exact hr.slot
  have hu : update state.histories read.key (some history) = state.histories := by
    rw [← hh, update_eq_self]
  unfold readHistory
  rw [hh, Option.getD_some, he]
  dsimp only
  rw [hsa]
  cases hs : samples state read with
  | true =>
    rw [h.ticks_of_samples (mem_of_mem_filter hre) hc hs]
    show (valueOf design read history true).map _ = _
    rw [hu]
  | false =>
    show (valueOf design read history _).map _ = _
    rw [Bool.false_or, hu]

end

theorem Recorded.back {n : ℕ} (h : Recorded design now timeline key history) (hp : 0 < n)
    (hc : n ≤ history.ring.capacity) (default : Value) :
    (if history.ring.count < n then .ok default
      else historyValue history (history.ring.count - n)) =
      (.ok ((samplesIn key timeline.steps).reverse[n - 1]?.getD default) :
        Except String Value) := by
  have hl := h.keeps.count
  split_ifs with hf
  · rw [getElem?_eq_none (by rw [length_reverse]; omega)]
    rfl
  · have hg := @RingBuffer.Keeps.get_back _ _ _ h.keeps (n - 1) (by omega)
    rw [show history.ring.count - 1 - (n - 1) = history.ring.count - n by omega] at hg
    rw [historyValue, hg, getElem?_eq_getElem (by rw [length_reverse]; omega)]
    rfl

theorem valueOf_eq (h : Recorded design now timeline read.key history)
    (hk : sampledHistoryKind read.kind = true)
    (hc : sampledHistoryCapacity read ≤ history.ring.capacity) (hp : read.ticks ≠ 0)
    (ht : read.ticks ≤ 4096) :
    valueOf design read history (timeline.current.ticks read.key) =
      .ok (expected design read timeline) := by
  have ho : 1 ≤ history.ring.capacity := (sampledHistoryCapacity_pos read).trans_le hc
  unfold valueOf expected
  cases hr : read.kind with
  | sampled => exact h.back (by omega) ho _
  | past =>
    have hro : read.ticks + 1 ≤ history.ring.capacity := by
      simp only [sampledHistoryCapacity, hr] at hc
      have hm : maximumRetainedSamples = 4097 := rfl
      by_cases hbi : maximumRetainedSamples - 1 ≤ read.ticks
      · rw [if_pos hbi] at hc
        omega
      · rwa [if_neg hbi] at hc
    have hs := samplesIn_steps read.key timeline
    have hb (o : ℕ) (ho : o ≤ 1) : (if read.ticks ≤ history.ring.count - o then
        historyValue history (history.ring.count - o - read.ticks)
          else .ok (design.default read.signal)) =
        .ok
          ((samplesIn read.key timeline.steps).reverse[read.ticks + o - 1]?.getD
            (design.default read.signal)) := by
      rw [← h.back (n := read.ticks + o) (by omega) (by omega), Nat.sub_sub,
        Nat.add_comm o, ← ite_not]
      exact if_congr (by omega) rfl rfl
    cases hn : timeline.current.ticks read.key with
    | false =>
      rw [hn, if_neg (by simp), append_nil] at hs
      exact hs ▸ hb 0 (by omega)
    | true =>
      -- the sample of the current time step stands behind those that count
      rw [hn, if_pos rfl] at hs
      have hb := hb 1 le_rfl
      rwa [hs, reverse_concat, Nat.add_sub_cancel, getElem?_cons, if_neg hp] at hb
  | rose | fell | stable | changed =>
    simp only [sampledHistoryCapacity, hr] at hc
    simp only [@Recorded.back _ _ _ _ _ 1 h (by omega) ho,
      @Recorded.back _ _ _ _ _ 2 h (by omega) hc]
    rfl
  | _ => simp [hr, sampledHistoryKind] at hk

theorem runSampledRead_eq (hk : sampledHistoryKind read.kind = true)
    (hs : read.signal < design.signals.length) :
    runSampledRead design state read = checkedRead design state read := by
  unfold runSampledRead
  cases hr : read.kind <;> simp_all [sampledHistoryKind]

theorem runSampledRead_cases (hr : runSampledRead design state read = .ok (value, state')) :
    state' = state ∨ readHistory design state read = .ok (value, state') ∧
      (read ∈ design.reads → read.clock.isSome = true → read ∈ design.indexed) := by
  by_cases hm : design.signals.length ≤ read.signal
  · unfold runSampledRead at hr
    split_ifs at hr
  by_cases hk : sampledHistoryKind read.kind = true
  · rw [runSampledRead_eq hk (not_le.mp hm)] at hr
    unfold checkedRead at hr
    dsimp only at hr
    split_ifs at hr with hsa ht hc hw hg hg'
    · cases hr
      exact .inl rfl
    · refine .inr ⟨hr, fun hre hs => mem_filter.mpr ⟨hre, ?_⟩⟩
      obtain ⟨c, he⟩ := Option.isSome_iff_exists.mp hs
      simp only [he, Option.any_some, decide_eq_true_eq, not_le] at hc
      cases hread_gate : read.gate with
      | none => simp [hk, not_le.mp hm, he, hc]
      | some g =>
        simp only [hread_gate, Option.any_some, decide_eq_true_eq, not_le] at hg
        simp [hk, not_le.mp hm, he, hc, hg]
  · unfold runSampledRead at hr
    split_ifs at hr with hcu
    refine .inl ?_
    cases hre : read.kind with
    | current => exact absurd hre hcu
    | sampled | past | rose | fell | stable | changed => simp [hre, sampledHistoryKind] at hk
    | future | rising | falling | steady | changing =>
      simp only [hre] at hr
      cases hr
      rfl

theorem Tracks.readSignal (h : Tracks design state timeline) (hrd : read ∈ design.reads)
    (hru : runSampledRead design state read = .ok (value, state')) :
    Tracks design state' timeline := by
  rcases runSampledRead_cases hru with rfl | ⟨hh, hin⟩
  · exact h
  cases hc : read.clock with
  | some c =>
    obtain ⟨history, -, he⟩ := h.readHistory_eq (hin hrd (by rw [hc]; rfl)) hc
    rw [he] at hh
    obtain ⟨_, -, hv⟩ := map_ok.mp hh
    cases hv
    exact h
  | none =>
    obtain ⟨history, rfl⟩ : ∃ history, state' = { state with
        histories := update state.histories read.key (some history) } := by
      unfold readHistory at hh
      obtain ⟨history, -, hv⟩ := bind_ok.mp hh
      obtain ⟨_, -, hv⟩ := map_ok.mp hv
      cases hv
      exact ⟨history, rfl⟩
    refine { h with histories := fun c key hk => ?_ }
    obtain ⟨hi', hh', hre⟩ := h.histories c key hk
    refine ⟨hi', ?_, hre⟩
    have hn : key ≠ read.key := by
      rintro rfl
      exact nomatch hc.symm.trans (mem_keysByClock.mp hk).1
    rw [← hh']
    exact update_of_ne hn ..

theorem Tracks.act {a : Action} (h : Tracks design state timeline) (hl : Legal design state a)
    (hsp : SparesClocks design a) (hs : step design state a = .ok state') :
    Tracks design state' (timeline.after state a) := by
  cases a with
  | slot t =>
    cases hs
    exact h.slot hl
  | nextDelta =>
    cases hs
    exact { h with }
  | change signal value s =>
    unfold step at hs
    unfold Timeline.after
    dsimp only at hs ⊢
    by_cases hv : state.value signal = value
    · rw [if_pos hv] at hs ⊢
      cases hs
      exact h
    · rw [if_neg hv] at hs ⊢
      obtain ⟨s₁, hst, ht⟩ := h.change hv hl.2
      cases hst.symm.trans hs
      exact ht
  | trigger e s => exact h.trigger hsp hs
  | read read =>
    obtain ⟨_, hr, rfl⟩ := map_ok.mp hs
    exact h.readSignal hl hr

section
variable (h : Run design (SparesClocks design) state timeline)
include h

theorem Run.tracks : Tracks design state timeline := by
  induction h with
  | start => exact tracks_start design
  | act _ hl hs hst ih => exact ih.act hl hs hst

/-- As long as no event that is a clock is triggered, a clocked read of a valid depth, signal, clock
and gate returns what the samples of its clock say, and changes nothing. -/
theorem sampled_reads (hread : read ∈ design.indexed)
    (hwidth : ∀ signal, read.clock = some signal ∨ read.gate = some signal →
      (design.default signal).length ≠ 0)
    (hpos : read.ticks ≠ 0) (hticks : read.ticks ≤ 4096) :
    runSampledRead design state read = .ok (expected design read timeline, state) := by
  have htracks := h.tracks
  have hwidths := htracks.widths
  obtain ⟨hmem, hvalid⟩ := mem_filter.mp hread
  simp only [Bool.and_eq_true, decide_eq_true_eq] at hvalid
  obtain ⟨⟨⟨hkind, hsignal⟩, hclock_lt⟩, hgate_lt⟩ := hvalid
  obtain ⟨clock, hclock⟩ : ∃ clock, read.clock = some clock := by
    cases hclock : read.clock with
    | none => simp [hclock] at hclock_lt
    | some clock => exact ⟨clock, rfl⟩
  obtain ⟨history, hrecorded, heq⟩ := htracks.readHistory_eq hread hclock
  have hvalue := valueOf_eq hrecorded hkind (hrecorded.capacity read hread rfl) hpos hticks
  rw [runSampledRead_eq hkind hsignal, checkedRead, if_neg (by simp [hclock]), if_neg hpos,
    if_neg (by simpa [hclock] using hclock_lt), if_neg (by
      rw [hclock, Option.any_some, (hwidths clock).1, (hwidths clock).2.2,
        decide_eq_false (hwidth clock (.inl hclock))]
      simp), if_neg ?_, if_neg ?_, heq, hvalue]
  · rfl
  · cases hgate : read.gate with
    | none => simp
    | some gate =>
      rw [Option.any_some, (hwidths gate).2.1, decide_eq_false (hwidth gate (.inr hgate))]
      simp
  · cases hgate : read.gate with
    | none => simp
    | some gate => simpa [hgate] using hgate_lt

end

def clockedData (isEvent : Bool) : Design :=
  ⟨[[.zero], [.zero]], fun signal => signal = 1 && isEvent,
    [⟨0, .sampled, 1, some 1, .any, none⟩]⟩

def dataRead : Read := ⟨0, .sampled, 1, some 1, .any, none⟩

theorem clockedData_read : ∃ state timeline,
    Run (clockedData false) (SparesClocks (clockedData false)) state timeline ∧
    timeline.past.length = 2 ∧
    runSampledRead (clockedData false) state dataRead = .ok ([.one], state) := by
  have h₁ := @Run.act _ (SparesClocks (clockedData false)) _ _ _ (.change 0 [.one] true)
    (@Run.start (clockedData false) _) ⟨rfl, rfl⟩ trivial rfl
  have h₂ := @Run.act _ _ _ _ _ (.slot 1) h₁ (by decide : 0 < 1) trivial rfl
  have h₃ := @Run.act _ _ _ _ _ (.change 1 [.one] true) h₂ ⟨rfl, rfl⟩ trivial rfl
  have h₄ := @Run.act _ _ _ _ _ (.slot 2) h₃ (by decide : 1 < 2) trivial rfl
  exact ⟨_, _, h₄, rfl, @sampled_reads _ _ _ dataRead h₄ (by decide)
    (by rintro signal (h | h) <;> cases h; decide) (by decide) (by decide)⟩

/-- An event is the clock and is triggered while the read does not run: the sample is missed. -/
theorem triggered_clock_missed : ∃ state timeline,
    Run (clockedData true) (fun _ => True) state timeline ∧
    expected (clockedData true) dataRead timeline = [.one] ∧
    ∃ state', runSampledRead (clockedData true) state dataRead = .ok ([.zero], state') := by
  have h₁ := @Run.act _ (fun _ => True) _ _ _ (.change 0 [.one] true)
    (@Run.start (clockedData true) _) ⟨rfl, rfl⟩ trivial rfl
  have h₂ := @Run.act _ _ _ _ _ (.slot 1) h₁ (by decide : 0 < 1) trivial rfl
  have h₃ := @Run.act _ _ _ _ _ (.trigger 1 true) h₂ rfl trivial rfl
  have h₄ := @Run.act _ _ _ _ _ (.slot 2) h₃ (by decide : 1 < 2) trivial rfl
  exact ⟨_, _, h₄, rfl, _, rfl⟩

end FsimRuntime.Sampled

import FsimRuntime.KernelPoolInvariant

/-!
# Steps of the worker pool

One operation of any thread keeps the invariant. A call of `runLanes` has to
begin in a settled state.
-/

namespace FsimRuntime.KernelPool
open Finset Function List

variable {lanes : ℕ} {calls : List Call} {s : State} {lane : ℕ} {fails : Bool} {t : TakePc}
  {m : Shared} {count : ℕ}

theorem takeStep_chunk (m : Shared) : (takeStep lane fails m t).1.chunk = m.chunk := by
  cases t <;> simp only [takeStep] <;> split <;> rfl

theorem takeStep_body (m : Shared) : (takeStep lane fails m t).1.body = m.body := by
  cases t <;> simp only [takeStep] <;> split <;> rfl

theorem takeStep_pinned (m : Shared) : (takeStep lane fails m t).1.pinned = m.pinned := by
  cases t <;> simp only [takeStep] <;> split <;> rfl

theorem exact_append {k : ℕ} {call : Call} {m' : Shared} {new new' : List Invocation}
    (hs : m'.started = m.started ++ new) (hf : m'.finished = m.finished ++ new')
    (hn : ∀ i ∈ new, i.body ≠ some k) (hn' : ∀ i ∈ new', i.body ≠ some k)
    (h : Exact lanes k call m) : Exact lanes k call m' := by
  have ha : ∀ log a : List Invocation, (∀ i ∈ a, i.body ≠ some k) →
      Covers lanes k call log → Covers lanes k call (log ++ a) := by
    intro log a had hl
    have hni : a.filter (fun i => i.body = some k) = [] := by simpa using had
    cases call <;> simpa [Covers, items, pairs, hni] using hl
  rw [Exact, hs, hf]
  exact ⟨ha _ _ hn h.1, ha _ _ hn' h.2⟩

theorem Base.stepTake (fails : Bool) (h : Base lanes calls s) (hla : lane < lanes)
    (ht : s.take lane = some t) (hs : ∀ i ∈ t.starts lane, i.body = some s.index)
    (hf : ∀ i ∈ t.finishes lane, i.body = some s.index) :
    Base lanes calls (stepTake lane fails t s) := by
  have hb : ∀ k < s.index, ∀ i : Invocation, i.body = some s.index → i.body ≠ some k := by
    intro k hk i hi he
    have := Option.some.inj (hi.symm.trans he)
    omega
  refine ⟨fun l hl u hu => ?_, ?_, fun k hk => ?_, fun i hi => ?_, fun i hi => ?_⟩
  · rcases update_eq_some hu with ⟨rfl, hu⟩ | ⟨-, hu⟩
    · obtain ⟨hep, hw⟩ := h.threads l hl t ht
      exact ⟨(takeStep_epoch hu).trans hep, takeStep_wellFormed h.chunk hw hu⟩
    · exact h.threads l hl u hu
  · simpa [KernelPool.stepTake, takeStep_chunk] using h.chunk
  · obtain ⟨call, hc, hexa⟩ := h.past k hk
    exact ⟨call, hc, exact_append takeStep_started takeStep_finished
      (fun i hi => hb k hk i (hs i hi)) (fun i hi => hb k hk i (hf i hi)) hexa⟩
  · simp only [KernelPool.stepTake, takeStep_started, mem_append] at hi
    rcases hi with hi | hi
    · exact h.started i hi
    · exact ⟨s.index, le_rfl, hs i hi⟩
  · simp only [KernelPool.stepTake, takeStep_finished, mem_append] at hi
    rcases hi with hi | hi
    · exact h.finished i hi
    · exact ⟨s.index, le_rfl, hf i hi⟩

theorem light_step (lane : ℕ) (fails : Bool) (hl : t.Light) (hw : t.WellFormed)
    (hpi : m.pinned = true → ∀ w, t ≠ .checkPinned w)
    (hs : m.word.count ≤ m.word.item ∨ t.epoch ≠ m.word.epoch) :
    (takeStep lane fails m t).1 = m ∧ ∀ t', (takeStep lane fails m t).2 = some t' →
      t'.Light ∧ ∀ w, t' ≠ .checkPinned w := by
  cases t with
  | checkPinned w =>
    have hm : m.pinned = false := by
      by_contra hp
      exact hpi (by simpa using hp) w rfl
    refine ⟨rfl, fun t' h => ?_⟩
    simp only [takeStep, hm] at h
    cases h
    exact ⟨trivial, by simp⟩
  | claim epoch w =>
    simp only [takeStep]
    split
    · exact ⟨rfl, by simp⟩
    · refine ⟨rfl, fun t' h => ?_⟩
      cases h
      exact ⟨trivial, by simp⟩
  | exchange epoch w l =>
    obtain ⟨he, hlt, hle⟩ := hw
    have hn : ¬ (m.word = w ∧ fails = false) := by
      rintro ⟨rfl, -⟩
      rcases hs with hc | hs
      · omega
      · exact hs he.symm
    simp only [takeStep, if_neg hn]
    refine ⟨trivial, fun t' h => ?_⟩
    cases h
    exact ⟨trivial, by simp⟩
  | reload epoch =>
    refine ⟨rfl, fun t' h => ?_⟩
    cases h
    exact ⟨trivial, by simp⟩
  | _ => exact hl.elim

theorem TakePc.Light.starts (h : t.Light) : t.starts lane = [] := by
  cases t <;> first | rfl | exact h.elim

theorem TakePc.Light.finishes (h : t.Light) : t.finishes lane = [] := by
  cases t <;> first | rfl | exact h.elim

/-- A thread enters `take` with the word that it has read or stored. -/
abbrev State.enter (s : State) (lane : ℕ) (word : Word) (leader : LeaderPc) : State :=
  { s with
    shared := { s.shared with word }
    leader
    take := update s.take lane (some (.checkPinned word))
    seen := update s.seen lane word.epoch }

theorem Base.enter (h : Base lanes calls s) {w : Word} {leader : LeaderPc} :
    Base lanes calls (s.enter lane w leader) := by
  refine { h with threads := fun l hl u hu => ?_ }
  rcases update_eq_some hu with ⟨rfl, ⟨⟩⟩ | ⟨hn, hu⟩
  · exact ⟨by simp [TakePc.epoch], trivial⟩
  · simpa [hn] using h.threads l hl u hu

section
variable (base : Base lanes calls s) (h : Rest lanes calls s) (hpo : 1 ≤ lane)
  (hla : lane < lanes)
include base h hpo hla

theorem Rest.stepTake (ht : s.take lane = some t) : Inv lanes calls (stepTake lane fails t s) := by
  have hli := h.light lane hla t ht
  have hc : s.shared.word.count ≤ s.shared.word.item := by
    refine h.complete.resolve_right fun hno => ?_
    rw [(hno lane hpo hla).1] at ht
    cases ht
  obtain ⟨hs, hn⟩ := light_step lane fails hli (base.threads lane hla t ht).2
    (fun hp w he => (h.pinned hp lane hpo hla).2 w (ht.trans (congrArg some he)))
    (.inl hc)
  have hb := base.stepTake fails hla ht (by simp [hli.starts]) (by simp [hli.finishes])
  have hst : KernelPool.stepTake lane fails t s =
      { s with take := update s.take lane (takeStep lane fails s.shared t).2 } := by
    rw [KernelPool.stepTake, hs]
  rw [hst] at hb ⊢
  refine .rest hb ⟨h.resting, ?_, fun l hl u hu => ?_, .inl hc,
    fun hp l hl hl' => ⟨(h.pinned hp l hl hl').1, fun w hu => ?_⟩, h.started,
    h.finished, h.mode,
    h.body, h.completed, h.epoch⟩
  · simpa [update_of_ne (Nat.ne_of_lt hpo)] using h.leader
  · rcases update_eq_some hu with ⟨rfl, hu⟩ | ⟨-, hu⟩
    · exact (hn u hu).1
    · exact h.light l hl u hu
  · rcases update_eq_some hu with ⟨rfl, hu⟩ | ⟨-, hu⟩
    · exact (hn _ hu).2 w rfl
    · exact (h.pinned hp l hl hl').2 w hu

theorem Rest.load (hs : s.shared.word.epoch ≠ s.seen lane) :
    Inv lanes calls (s.enter lane s.shared.word s.leader) := by
  have hm : s.shared.pinned = false := by
    by_contra hp
    exact hs (h.pinned (by simpa using hp) lane hpo hla).1.symm
  have hc : s.shared.word.count ≤ s.shared.word.item :=
    h.complete.resolve_right fun hn => hs (hn lane hpo hla).2.symm
  refine .rest base.enter { h with
    leader := (update_of_ne (Nat.ne_of_lt hpo) ..).trans h.leader
    light := fun l hl u hu => ?_
    complete := .inl hc
    pinned := by simp [hm] }
  rcases update_eq_some hu with ⟨-, ⟨⟩⟩ | ⟨-, hu⟩
  · trivial
  · exact h.light l hl u hu

end

section Run
variable {k : ℕ} {m : Shared} {M : Type*} {a b : M}

theorem TakePc.Dynamic.starts (h : t.Dynamic k) : ∀ i ∈ t.starts lane, i.body = some k := by
  cases t with
  | startPinned => exact h.elim
  | runItems epoch b item next l =>
    intro i hi
    simp only [TakePc.starts] at hi
    split at hi
    · rw [List.mem_singleton.mp hi]
      exact h
    · cases hi
  | _ => rintro _ ⟨⟩

theorem TakePc.Dynamic.finishes (h : t.Dynamic k) : ∀ i ∈ t.finishes lane, i.body = some k := by
  cases t with
  | runPinned => exact h.elim
  | inItem epoch b item next l =>
    intro i hi
    rw [List.mem_singleton.mp hi]
    exact h
  | _ => nofun

theorem takeStep_dynamic (hp : m.pinned = false) (hb : m.body = some k)
    (hd : t.Dynamic k) {t' : TakePc} (h : (takeStep lane fails m t).2 = some t') :
    t'.Dynamic k := by
  cases t with
  | checkPinned w =>
    simp only [takeStep, hp] at h
    cases h
    trivial
  | claim epoch w | exchange epoch w l =>
    simp only [takeStep] at h
    split at h <;> cases h <;> trivial
  | loadBody epoch i l =>
    cases h
    exact hb
  | runItems epoch b i next l =>
    simp only [takeStep] at h
    split at h <;> cases h
    · exact hd
    · trivial
  | inItem epoch b i next l =>
    cases h
    exact hd
  | reload epoch =>
    cases h
    trivial
  | _ => exact hd.elim

theorem takeStep_word (lane : ℕ) (fails : Bool) (hd : t.Dynamic k) (hw : t.WellFormed)
    (hit : m.word.item ≤ m.word.count) : (takeStep lane fails m t).1.word.count = m.word.count ∧
      (takeStep lane fails m t).1.word.item ≤ m.word.count := by
  cases t with
  | exchange epoch w l =>
    simp only [takeStep]
    split
    next h =>
      obtain ⟨rfl, -⟩ := h
      exact ⟨rfl, hw.2.2⟩
    next => exact ⟨rfl, hit⟩
  | claim epoch w | runItems epoch b i next l =>
    simp only [takeStep]
    split <;> exact ⟨rfl, hit⟩
  | _ => exact ⟨rfl, hit⟩

theorem takeStep_balance (lane : ℕ) (fails : Bool) (hp : m.pinned = false)
    (hd : t.Dynamic k) (hw : t.WellFormed) :
    items k (takeStep lane fails m t).1.started + toStart (takeStep lane fails m t).2 +
        Multiset.range m.word.item = items k m.started + toStart (some t) +
        Multiset.range (takeStep lane fails m t).1.word.item ∧
    items k (takeStep lane fails m t).1.finished + toFinish (takeStep lane fails m t).2 +
        Multiset.range m.word.item = items k m.finished + toFinish (some t) +
        Multiset.range (takeStep lane fails m t).1.word.item ∧
    (takeStep lane fails m t).1.completed + held (takeStep lane fails m t).2 + m.word.item =
      m.completed + held (some t) + (takeStep lane fails m t).1.word.item := by
  cases t with
  | checkPinned w => simp [takeStep, hp, toStart, toFinish, held]
  | claim epoch w =>
    simp only [takeStep]
    split <;> simp [toStart, toFinish, held]
  | exchange epoch w l =>
    simp only [takeStep]
    split
    next h =>
      obtain ⟨rfl, -⟩ := h
      have hl := hw.2.1
      simp only [toStart, toFinish, held, ← range_add_range' (Nat.le_of_lt hl)]
      exact ⟨by ac_rfl, by ac_rfl, by omega⟩
    next => simp [toStart, toFinish, held]
  | runItems epoch b i next l =>
    obtain rfl : b = some k := hd
    simp only [takeStep]
    split
    next h =>
      simp only [items_append_self, toStart, toFinish, held, range'_cons_coe h]
      ac_rfl
    next h =>
      have hz : l - next = 0 := by omega
      simp [toStart, toFinish, held, hz]
  | inItem epoch b i next l =>
    obtain rfl : b = some k := hd
    simp only [takeStep, items_append_self, toStart, toFinish, held, range'_cons_coe hw.2, true_and]
    ac_rfl
  | loadBody | reload => simp [takeStep, toStart, toFinish, held]
  | _ => exact hd.elim

theorem balance [AddCancelCommMonoid M] {c c' d total t' : M}
    (h : a + (c + d) = total) (hs : b + c' + total = a + c + t') : b + (c' + d) = t' := by
  have hsu : a + c + (b + (c' + d)) = a + c + t' := by
    rw [← hs, ← h]
    ac_rfl
  exact add_left_cancel hsu

theorem sum_balance [AddCancelCommMonoid M] {n i : ℕ} (hi : i < n)
    {f g : ℕ → M} (ho : ∀ l, l ≠ i → g l = f l) (h : a = ∑ l ∈ range n, f l)
    (hs : b + f i = a + g i) : b = ∑ l ∈ range n, g l := by
  obtain ⟨r, hb, ha⟩ := exists_sum_split hi ho
  have hsu : f i + b = f i + (g i + r) := by
    rw [add_comm, hs, h, hb]
    ac_rfl
  exact (add_left_cancel hsu).trans ha.symm

end Run

section
variable (base : Base lanes calls s) (h : RunActive lanes count calls s)
include base h

theorem RunActive.stepTake (hla : lane < lanes) (ht : s.take lane = some t)
    (hle : s.leader = .waitCompleted → lane ≠ 0) :
    Inv lanes calls (stepTake lane fails t s) := by
  have hd := h.threads lane hla t ht
  have hwf := (base.threads lane hla t ht).2
  have hwo := takeStep_word lane fails hd hwf (h.wordCount ▸ h.item_le)
  have hof : ∀ {M : Type} (f : Option TakePc → M) (l : ℕ), l ≠ lane →
      f ((KernelPool.stepTake lane fails t s).take l) = f (s.take l) := by
    intro M f l hl
    simp [KernelPool.stepTake, update_of_ne hl]
  have hon : (KernelPool.stepTake lane fails t s).take lane =
      (takeStep lane fails s.shared t).2 := update_self ..
  have ho : ∀ {M : Type} [AddCancelCommMonoid M] (f : Option TakePc → M) {a b c c' : M},
      a + ∑ l ∈ range lanes, f (s.take l) = c →
      b + f (takeStep lane fails s.shared t).2 + c = a + f (some t) + c' →
      b + ∑ l ∈ range lanes, f ((KernelPool.stepTake lane fails t s).take l) = c' := by
    intro M _ f a b c c' hsu hst
    obtain ⟨r, hb, ha⟩ := exists_sum_split hla (hof f)
    rw [hb, ht] at hsu
    rw [ha, hon]
    exact balance hsu hst
  obtain ⟨hs, hf, hc⟩ := takeStep_balance lane fails h.pinned hd hwf
  refine .run count (base.stepTake fails hla ht hd.starts hd.finishes)
    ⟨h.call, ?_, ?_, ?_, fun l hl u hu => ?_, hwo.1.trans h.wordCount, ?_, ?_, ?_, ?_⟩
  · refine h.leader.imp_right fun hw => ⟨hw.1, ?_⟩
    have hn := (hle hw.1).symm
    simpa [KernelPool.stepTake, update_of_ne hn] using hw.2
  · exact (takeStep_pinned _).trans h.pinned
  · exact (takeStep_body _).trans h.body
  · rcases update_eq_some hu with ⟨rfl, hu⟩ | ⟨-, hu⟩
    · exact takeStep_dynamic h.pinned h.body hd hu
    · exact h.threads l hl u hu
  · exact h.wordCount ▸ hwo.2
  · exact ho toStart h.started hs
  · exact ho toFinish h.finished hf
  · exact ho held h.completed hc

theorem RunActive.load (hp : 1 ≤ lane) (hn : s.take lane = none) :
    Inv lanes calls (s.enter lane s.shared.word s.leader) := by
  -- A thread that has just read the word owes nothing, like one outside `take`.
  have hs : ∀ {M : Type} (f : Option TakePc → M), f (some (.checkPinned s.shared.word)) =
      f none → ∀ l, f (s.take l) = f ((s.enter lane s.shared.word s.leader).take l) := by
    intro M f hf l
    by_cases hlu : l = lane
    · subst hlu
      simp only [update_self, hn, hf]
    · simp only [update_of_ne hlu]
  refine .run count base.enter { h with
    leader := h.leader.imp_right fun hw =>
      ⟨hw.1, (update_of_ne (Nat.ne_of_lt hp) ..).trans hw.2⟩
    threads := fun l hl u hu => ?_
    started := by simpa only [hs toStart rfl] using h.started
    finished := by simpa only [hs toFinish rfl] using h.finished
    completed := by simpa only [hs held rfl] using h.completed }
  rcases update_eq_some hu with ⟨-, ⟨⟩⟩ | ⟨-, hu⟩
  · trivial
  · exact h.threads l hl u hu

end

section Lanes
variable {k seen : ℕ} {m : Shared}

structure LaneStep (k lane seen : ℕ) (m : Shared) (t : TakePc) (m' : Shared)
    (next : Option TakePc) : Prop where
  word : m'.word = m.word
  late : seen ≠ m.word.epoch → ∀ t', next = some t' →
    t'.Light ∧ ∀ word, t' ≠ .checkPinned word
  current : seen = m.word.epoch → ∀ t', next = some t' → t'.Pinned k
  started : pairs k m'.started + begun m.word.epoch seen lane (some t) =
    pairs k m.started + begun m.word.epoch seen lane next
  finished : pairs k m'.finished + ended m.word.epoch seen lane (some t) =
    pairs k m.finished + ended m.word.epoch seen lane next
  kept : ∀ l, m.done l = some m.word.epoch → m'.done l = some m.word.epoch
  fresh : ∀ l, m'.done l = some m.word.epoch →
    m.done l = some m.word.epoch ∨ l = lane ∧ next = none ∧ seen = m.word.epoch

variable {epoch : ℕ}

theorem TakePc.Light.begun_eq (h : t.Light) : begun epoch seen lane (some t) = 0 := by
  cases t <;> first | rfl | exact h.elim

theorem TakePc.Light.ended_eq (h : t.Light) : ended epoch seen lane (some t) = 0 := by
  cases t <;> first | rfl | exact h.elim

theorem late_step (hli : t.Light) (hm : ∀ w, t ≠ .checkPinned w)
    (hw : t.WellFormed) (hep : t.epoch = seen) (hl : seen ≠ m.word.epoch) :
    LaneStep k lane seen m t (takeStep lane fails m t).1 (takeStep lane fails m t).2 := by
  obtain ⟨hs, hn⟩ := light_step lane fails hli hw (fun _ => hm) (.inr (hep ▸ hl))
  rw [hs]
  refine ⟨rfl, fun _ => hn, fun he => (hl he).elim, ?_, ?_, fun _ => id, fun _ => .inl⟩
  · rw [hli.begun_eq]
    cases hu : (takeStep lane fails m t).2 with
    | none => simp [begun, hl]
    | some u => rw [(hn u hu).1.begun_eq]
  · rw [hli.ended_eq]
    cases hu : (takeStep lane fails m t).2 with
    | none => simp [ended, hl]
    | some u => rw [(hn u hu).1.ended_eq]

theorem current_step (hp : m.pinned = true) (hb : m.body = some k)
    (ht : t.Pinned k) (he : t.epoch = m.word.epoch) :
    LaneStep k lane m.word.epoch m t (takeStep lane fails m t).1 (takeStep lane fails m t).2 := by
  cases t with
  | checkPinned w =>
    simp only [takeStep, hp]
    exact ⟨rfl, absurd rfl, by rintro - _ ⟨⟩; trivial, rfl, rfl, fun _ => id, fun _ => .inl⟩
  | checkState epoch =>
    obtain rfl : epoch = m.word.epoch := he
    simp only [takeStep]
    exact ⟨rfl, absurd rfl, by rintro - _ ⟨⟩; trivial, rfl, rfl, fun _ => id, fun _ => .inl⟩
  | loadPinned epoch =>
    exact ⟨rfl, absurd rfl, by rintro - _ ⟨⟩; exact hb, rfl, rfl, fun _ => id,
      fun _ => .inl⟩
  | startPinned epoch b =>
    obtain rfl : b = some k := ht
    simp only [takeStep]
    exact ⟨rfl, absurd rfl, by rintro - _ ⟨⟩; rfl, by simp [pairs_append_self, begun], rfl,
      fun _ => id, fun _ => .inl⟩
  | runPinned epoch b =>
    obtain rfl : b = some k := ht
    simp only [takeStep]
    exact ⟨rfl, absurd rfl, by rintro - _ ⟨⟩; trivial,
      rfl, by simp [pairs_append_self, ended], fun _ => id, fun _ => .inl⟩
  | storeDone epoch =>
    obtain rfl : epoch = m.word.epoch := he
    simp only [takeStep]
    refine ⟨rfl, absurd rfl, by simp, by simp [begun], by simp [ended], fun l hl => ?_,
      fun l hl => ?_⟩
    · by_cases hlu : l = lane
      · simp [hlu]
      · simpa [hlu] using hl
    · by_cases hlu : l = lane
      · exact .inr ⟨hlu, rfl, rfl⟩
      · exact .inl (by simpa [hlu] using hl)
  | _ => exact ht.elim

theorem TakePc.Pinned.starts (h : t.Pinned k) : ∀ i ∈ t.starts lane, i.body = some k := by
  cases t with
  | startPinned epoch b =>
    intro i hi
    rw [List.mem_singleton.mp hi]
    exact h
  | runItems => exact h.elim
  | _ => nofun

theorem TakePc.Pinned.finishes (h : t.Pinned k) : ∀ i ∈ t.finishes lane, i.body = some k := by
  cases t with
  | runPinned epoch b =>
    intro i hi
    rw [List.mem_singleton.mp hi]
    exact h
  | inItem => exact h.elim
  | _ => nofun

theorem LanesActive.lane_step (fails : Bool) (base : Base lanes calls s)
    (h : LanesActive lanes calls s) (hl : lane < lanes) (ht : s.take lane = some t) :
    LaneStep s.index lane (s.seen lane) s.shared t (takeStep lane fails s.shared t).1
      (takeStep lane fails s.shared t).2 := by
  obtain ⟨he, hw⟩ := base.threads lane hl t ht
  by_cases hs : s.seen lane = s.shared.word.epoch
  · rw [hs]
    exact current_step h.pinned h.body (h.current lane hl hs t ht) (he.trans hs)
  · obtain ⟨hli, hm⟩ := h.late lane hl hs t ht
    exact late_step hli hm hw he hs

section
variable (base : Base lanes calls s) (h : LanesActive lanes calls s)
include base h

theorem LanesActive.stepTake
    (hla : lane < lanes) (ht : s.take lane = some t) (hle : s.leader ≠ .taking → lane ≠ 0) :
    Inv lanes calls (stepTake lane fails t s) := by
  have hst := lane_step fails base h hla ht
  have hon : (KernelPool.stepTake lane fails t s).take lane =
      (takeStep lane fails s.shared t).2 := update_self ..
  have ho : ∀ l, l ≠ lane → (KernelPool.stepTake lane fails t s).take l = s.take l :=
    fun l hl => update_of_ne hl ..
  have hw : (KernelPool.stepTake lane fails t s).shared.word = s.shared.word := hst.word
  have hb : (∀ i ∈ t.starts lane, i.body = some s.index) ∧
      ∀ i ∈ t.finishes lane, i.body = some s.index := by
    by_cases hs : s.seen lane = s.shared.word.epoch
    · have hp := h.current lane hla hs t ht
      exact ⟨hp.starts, hp.finishes⟩
    · have hl := (h.late lane hla hs t ht).1
      simp [hl.starts, hl.finishes]
  refine .lanes (base.stepTake fails hla ht hb.1 hb.2)
    ⟨h.call, h.leader, fun hne => ?_, (takeStep_pinned _).trans h.pinned,
      (takeStep_body _).trans h.body, h.seen.trans (congrArg Word.epoch hw.symm),
      fun l hl hs u hu => ?_,
      fun l hl hs u hu => ?_, fun l hl hl' hd => ?_, ?_, ?_, ?_, ?_⟩
  · rw [ho 0 (hle hne).symm]
    exact h.waiting hne
  · rw [hw] at hs
    rcases update_eq_some hu with ⟨rfl, hu⟩ | ⟨-, hu⟩
    · exact hst.late hs u hu
    · exact h.late l hl hs u hu
  · rw [hw] at hs
    rcases update_eq_some hu with ⟨rfl, hu⟩ | ⟨-, hu⟩
    · exact hst.current hs u hu
    · exact h.current l hl hs u hu
  · rw [hw] at hd ⊢
    rcases hst.fresh l hd with hold | ⟨rfl, hn, hs⟩
    · obtain ⟨hn, hs⟩ := h.done l hl hl' hold
      refine ⟨?_, hs⟩
      by_cases hlu : l = lane
      · rw [hlu, ht] at hn
        cases hn
      · exact (ho l hlu).trans hn
    · exact ⟨hon.trans hn, hs⟩
  · rw [hw]
    refine sum_balance hla (fun l hl => congrArg (begun _ (s.seen l) l) (ho l hl)) h.started ?_
    rw [hon, ht]
    exact hst.started
  · rw [hw]
    refine sum_balance hla (fun l hl => congrArg (ended _ (s.seen l) l) (ho l hl)) h.finished ?_
    rw [hon, ht]
    exact hst.finished
  · intro first l d hsc j hj hj' hc
    rw [hw]
    exact hst.kept j (h.scanned first l d hsc j hj hj' hc)
  · intro first ha j hj hj' hc
    rw [hw]
    exact hst.kept j (h.advanced first ha j hj hj' hc)

theorem LanesActive.load
    (hp : 1 ≤ lane) (hn : s.take lane = none) (hs : s.shared.word.epoch ≠ s.seen lane) :
    Inv lanes calls (s.enter lane s.shared.word s.leader) := by
  have hz : 0 ≠ lane := Nat.ne_of_lt hp
  -- The late worker has begun nothing, and neither has one that has just read the word.
  have hsa : ∀ {M : Type} (f : ℕ → ℕ → Option TakePc → M), f s.shared.word.epoch lane
      (some (.checkPinned s.shared.word)) = f (s.seen lane) lane none → ∀ l,
      f (s.seen l) l (s.take l) = f ((s.enter lane s.shared.word s.leader).seen l) l
        ((s.enter lane s.shared.word s.leader).take l) := by
    intro M f hf l
    by_cases hlu : l = lane
    · subst hlu
      simp only [update_self, hn, hf]
    · simp only [update_of_ne hlu]
  refine .lanes base.enter { h with
    waiting := fun hne => (update_of_ne hz ..).trans (h.waiting hne)
    seen := (update_of_ne hz ..).trans h.seen
    late := fun l hl hla u hu => ?_
    current := fun l hl hc u hu => ?_
    done := fun l hl hl' hd => ?_
    started := by
      simpa only [hsa (begun s.shared.word.epoch) (by simp [begun, hs.symm])] using h.started
    finished := by
      simpa only [hsa (ended s.shared.word.epoch) (by simp [ended, hs.symm])] using h.finished }
  · by_cases hlu : l = lane
    · subst hlu
      simp at hla
    · simp only [update_of_ne hlu] at hla hu
      exact h.late l hl hla u hu
  · rcases update_eq_some hu with ⟨-, ⟨⟩⟩ | ⟨hn, hu⟩
    · trivial
    · exact h.current l hl (by simpa [hn] using hc) u hu
  · have hold := h.done l hl hl' hd
    by_cases hlu : l = lane
    · subst hlu
      exact (hs hold.2.symm).elim
    · simpa [update_of_ne hlu] using hold

end

end Lanes

theorem Inv.workerStep (h : Inv lanes calls s) (hp : 1 ≤ lane) (hl : lane < lanes) :
    Inv lanes calls (workerStep lane fails s) := by
  have hz : lane ≠ 0 := Nat.ne_of_gt hp
  rw [KernelPool.workerStep]
  split
  · next t ht =>
    cases h with
    | rest base h => exact h.stepTake base hp hl ht
    | run count base h | lanes base h => exact h.stepTake base hl ht fun _ => hz
  · next hn =>
    split
    · exact h
    · next hs =>
      cases h with
      | rest base h => exact h.load base hp hl hs
      | run count base h => exact h.load base hp hn
      | lanes base h => exact h.load base hp hn hs

end FsimRuntime.KernelPool

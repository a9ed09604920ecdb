import FsimRuntime.KernelPoolSteps

/-!
# Calls of the worker pool

The operations of the calling thread: a call starts its batch out of rest and
returns to rest with every invocation of its body finished.
-/

namespace FsimRuntime.KernelPool
open Finset Function

variable {lanes : ℕ} {calls : List Call} {s : State} {lane : ℕ} {fails : Bool} {t : TakePc}
  {call : Call} {count : ℕ} {leader : LeaderPc} {k : ℕ}

theorem Base.callReturn (h : Base lanes calls s) (hc : calls[s.index]? = some call)
    (he : Exact lanes s.index call s.shared) : Base lanes calls s.callReturn := by
  refine ⟨h.threads, h.chunk, fun k hk => ?_, fun i hi => ?_, fun i hi => ?_⟩
  · rcases Nat.lt_succ_iff_lt_or_eq.mp hk with hl | rfl
    · exact h.past k hl
    · exact ⟨call, hc, he⟩
  · obtain ⟨k, hk, hb⟩ := h.started i hi
    exact ⟨k, Nat.le_succ_of_le hk, hb⟩
  · obtain ⟨k, hk, hb⟩ := h.finished i hi
    exact ⟨k, Nat.le_succ_of_le hk, hb⟩

theorem Base.rest_callReturn (h : Base lanes calls s) (hl : s.take 0 = none)
    (hli : ∀ lane < lanes, ∀ t, s.take lane = some t → t.Light)
    (hc : s.shared.word.count ≤ s.shared.word.item ∨ ∀ lane, 1 ≤ lane → lane < lanes →
      s.take lane = none ∧ s.seen lane = s.shared.word.epoch)
    (hp : s.shared.pinned = true → ∀ lane, 1 ≤ lane → lane < lanes →
      s.seen lane = s.shared.word.epoch ∧ ∀ w, s.take lane ≠ some (.checkPinned w)) :
    Rest lanes calls s.callReturn := by
  refine ⟨trivial, hl, hli, hc, hp, fun i hi he => ?_, fun i hi he => ?_,
    fun hn => (hn rfl).elim, fun hn => (hn rfl).elim, nofun, nofun⟩
  · obtain ⟨k, hk, hb⟩ := h.started i hi
    have := Option.some.inj (hb.symm.trans he)
    exact absurd hk (by simp only [this, State.callReturn]; omega)
  · obtain ⟨k, hk, hb⟩ := h.finished i hi
    have := Option.some.inj (hb.symm.trans he)
    exact absurd hk (by simp only [this, State.callReturn]; omega)

theorem TakePc.Light.toStart_eq (h : t.Light) : toStart (some t) = 0 := by
  cases t <;> first | rfl | exact h.elim

theorem TakePc.Light.toFinish_eq (h : t.Light) : toFinish (some t) = 0 := by
  cases t <;> first | rfl | exact h.elim

theorem TakePc.Light.held_eq (h : t.Light) : held (some t) = 0 := by
  cases t <;> first | rfl | exact h.elim

theorem TakePc.Light.dynamic (h : t.Light) : t.Dynamic k := by
  cases t <;> trivial

theorem TakePc.Dynamic.light (h : t.Dynamic k) (hw : t.WellFormed)
    (hh : held (some t) = 0) : t.Light := by
  cases t with
  | loadBody epoch i l =>
    have hl : i < l := hw
    have hz : l - i = 0 := hh
    omega
  | runItems epoch b i next l =>
    have hl : i < l := hw.1
    have hz : l - i = 0 := hh
    omega
  | inItem epoch b i next l =>
    obtain ⟨hle, hl⟩ : i ≤ next ∧ next < l := hw
    have hz : l - i = 0 := hh
    omega
  | checkPinned | claim | exchange | reload => trivial
  | _ => exact h.elim

theorem sum_light {M : Type*} [AddCommMonoid M] {f : Option TakePc → M} (hn : f none = 0)
    (hz : ∀ t, TakePc.Light t → f (some t) = 0)
    (hl : ∀ lane < lanes, ∀ t, s.take lane = some t → t.Light) :
    ∑ lane ∈ range lanes, f (s.take lane) = 0 := by
  refine sum_eq_zero fun lane hla => ?_
  cases ht : s.take lane with
  | none => exact hn
  | some t => exact hz t (hl lane (mem_range.mp hla) t ht)

theorem epoch_succ_ne (epoch : ℕ) : epoch ≠ (epoch + 1) % epochLimit := by
  rw [epochLimit]
  omega

section Start
variable {epoch : ℕ}

theorem Rest.light_enter {w : Word} (h : Rest lanes calls s) :
    ∀ l < lanes, ∀ u, (s.enter 0 w leader).take l = some u → u.Light := by
  intro l hl u hu
  rcases update_eq_some hu with ⟨-, ⟨⟩⟩ | ⟨-, hu⟩
  · trivial
  · exact h.light l hl u hu

theorem Rest.start_run (base : Base lanes calls s) (h : Rest lanes calls s)
    (hc : calls[s.index]? = some (.run count)) (hle : s.leader = .storeState epoch) :
    Inv lanes calls (s.enter 0 ⟨epoch, count, 0⟩ .taking) := by
  have hli := @Rest.light_enter _ _ _ .taking ⟨epoch, count, 0⟩ h
  obtain ⟨call, hc', hm, -⟩ := h.mode (by simp [hle])
  obtain rfl : call = .run count := Option.some.inj (hc'.symm.trans hc)
  refine .run count base.enter ⟨hc, .inl rfl, by simpa using hm,
    h.body (by simp [hle]) (by simp [hle]), fun l hl u hu => (hli l hl u hu).dynamic,
    rfl, Nat.zero_le _, ?_, ?_, ?_⟩
  · rw [sum_light rfl (fun _ => TakePc.Light.toStart_eq) hli]
    exact (add_zero _).trans (items_of_forall_ne h.started)
  · rw [sum_light rfl (fun _ => TakePc.Light.toFinish_eq) hli]
    exact (add_zero _).trans (items_of_forall_ne h.finished)
  · rw [sum_light rfl (fun _ => TakePc.Light.held_eq) hli]
    exact h.completed (.inr ⟨epoch, hle⟩)

theorem Rest.start_lanes (base : Base lanes calls s) (h : Rest lanes calls s)
    (hca : calls[s.index]? = some .runLanes) (hle : s.leader = .storeState epoch) :
    Inv lanes calls (s.enter 0 ⟨epoch, lanes, 0⟩ .taking) := by
  obtain ⟨call, hc', hm, hdo⟩ := h.mode (by simp [hle])
  obtain rfl : call = .runLanes := Option.some.inj (hc'.symm.trans hca)
  have he := h.epoch epoch hle
  have hp : s.shared.pinned = true := by simpa using hm
  have hs : ∀ l, 1 ≤ l → l < lanes → s.seen l ≠ epoch := by
    intro l hl hl'
    rw [(h.pinned hp l hl hl').1, he]
    exact epoch_succ_ne _
  have hz : ∀ {l : ℕ}, l ≠ 0 → 1 ≤ l := Nat.one_le_iff_ne_zero.mpr
  -- The leader has begun nothing, and the workers have not seen the batch.
  have hsu : ∀ f : ℕ → ℕ → Option TakePc → Multiset (ℕ × ℕ),
      (∀ seen l, seen ≠ epoch → f seen l none = 0) →
      (∀ seen l t, t.Light → f seen l (some t) = 0) →
      ∑ l ∈ range lanes, f (update s.seen 0 epoch l) l
        (update s.take 0 (some (.checkPinned ⟨epoch, lanes, 0⟩)) l) = 0 := by
    intro f hn hli
    refine sum_eq_zero fun l hl => ?_
    by_cases hl0 : l = 0
    · rw [hl0, update_self, update_self]
      exact hli _ _ _ trivial
    · rw [update_of_ne hl0, update_of_ne hl0]
      cases hu : s.take l with
      | none => exact hn _ _ (hs l (hz hl0) (mem_range.mp hl))
      | some u => exact hli _ _ _ (h.light l (mem_range.mp hl) u hu)
  refine .lanes base.enter ⟨hca, ⟨by simp [LeaderPc.Resting], nofun⟩, by simp, hp,
    h.body (by simp [hle]) (by simp [hle]), by simp, fun l hl hla u hu => ?_,
    fun l hl hc u hu => ?_, fun l hl hl' hd => (hdo rfl l hl hl' (he ▸ hd)).elim,
    (pairs_of_forall_ne h.started).trans (hsu (begun _) ?_ fun _ _ _ => TakePc.Light.begun_eq).symm,
    (pairs_of_forall_ne h.finished).trans
      (hsu (ended _) ?_ fun _ _ _ => TakePc.Light.ended_eq).symm,
    nofun, nofun⟩
  · rcases update_eq_some hu with ⟨rfl, -⟩ | ⟨hn, hu⟩
    · simp at hla
    · exact ⟨h.light l hl u hu, fun word he =>
        (h.pinned hp l (hz hn) hl).2 word (hu.trans (congrArg some he))⟩
  · rcases update_eq_some hu with ⟨-, ⟨⟩⟩ | ⟨hn, -⟩
    · trivial
    · exact absurd (by simpa [hn] using hc) (hs l (hz hn) hl)
  · exact fun _ _ hne => if_neg hne
  · exact fun _ _ hne => if_neg hne

end Start

theorem RunActive.callReturn (base : Base lanes calls s) (h : RunActive lanes count calls s)
    (hn : s.take 0 = none) (hc : s.shared.completed = count) : Inv lanes calls s.callReturn := by
  have hsu := h.completed
  have hle := h.item_le
  have hit : s.shared.word.item = count := by omega
  have hh : ∑ lane ∈ range lanes, held (s.take lane) = 0 := by omega
  have hl : ∀ lane < lanes, ∀ t, s.take lane = some t → t.Light := by
    intro lane hla t ht
    have hz := sum_eq_zero_iff.mp hh lane (mem_range.mpr hla)
    rw [ht] at hz
    exact (h.threads lane hla t ht).light (base.threads lane hla t ht).2 hz
  have hs := h.started
  have hf := h.finished
  rw [sum_light rfl (fun _ => TakePc.Light.toStart_eq) hl, add_zero, hit] at hs
  rw [sum_light rfl (fun _ => TakePc.Light.toFinish_eq) hl, add_zero, hit] at hf
  refine .rest (base.callReturn h.call ⟨hs, hf⟩)
    (base.rest_callReturn hn hl (.inl ?_) fun hp => ?_)
  · rw [h.wordCount, hit]
  · simp [h.pinned] at hp

theorem sum_singleton_pair (n : ℕ) :
    ∑ lane ∈ range n, ({(lane, lane)} : Multiset (ℕ × ℕ)) =
      (Multiset.range n).map fun lane => (lane, lane) := by
  rw [← Multiset.sum_map_singleton ((Multiset.range n).map fun lane => (lane, lane)),
    Multiset.map_map]
  rfl

theorem LanesActive.callReturn (base : Base lanes calls s) (h : LanesActive lanes calls s)
    (hn : s.take 0 = none)
    (hd : ∀ l, 1 ≤ l → l < lanes → s.shared.done l = some s.shared.word.epoch) :
    Inv lanes calls s.callReturn := by
  have ha : ∀ l, l < lanes → s.take l = none ∧ s.seen l = s.shared.word.epoch := by
    intro l hl
    by_cases hz : l = 0
    · subst hz
      exact ⟨hn, h.seen⟩
    · have hp := Nat.one_le_iff_ne_zero.mpr hz
      exact h.done l hp hl (hd l hp hl)
  have hs := h.started
  have hf := h.finished
  rw [sum_congr rfl fun l hl => show _ = {(l, l)} by
    simp [begun, ha l (mem_range.mp hl)], sum_singleton_pair] at hs
  rw [sum_congr rfl fun l hl => show _ = {(l, l)} by
    simp [ended, ha l (mem_range.mp hl)], sum_singleton_pair] at hf
  refine .rest (base.callReturn h.call ⟨hs, hf⟩)
    (base.rest_callReturn hn (fun l hl t ht => ?_) (.inr fun l _ hl => ha l hl)
      fun _ l _ hl => ⟨(ha l hl).2, fun w => ?_⟩)
  · rw [(ha l hl).1] at ht
    cases ht
  · simp [(ha l hl).1]

theorem Rest.leaderStep (base : Base lanes calls s) (h : Rest lanes calls s)
    (hs : s.leader = .between → calls[s.index]? = some .runLanes → Settled lanes s) :
    Inv lanes calls (leaderStep lanes calls fails s) := by
  rw [KernelPool.leaderStep]
  cases hc : calls[s.index]? with
  | none => exact .rest base h
  | some call =>
    cases hle : s.leader with
    | between =>
      refine .rest { base with } { h with
        resting := trivial
        pinned := fun hp l hl hl' => ?_
        mode := fun _ => ⟨call, hc, rfl, fun hm l hl hl' => ?_⟩
        body := by simp
        completed := by simp
        epoch := by simp }
      · obtain rfl : call = .runLanes := by simpa using hp
        exact ⟨(hs hle hc l hl hl').1, (hs hle hc l hl hl').2.1⟩
      · subst hm
        exact (hs hle hc l hl hl').2.2
    | storeBody =>
      exact .rest { base with } { h with
        resting := by cases call <;> trivial
        mode := fun _ => h.mode (by simp [hle])
        body := fun _ _ => rfl
        completed := by cases call <;> simp
        epoch := by cases call <;> simp }
    | storeChunk =>
      cases call with
      | run count =>
        exact .rest { base with chunk := Nat.le_max_left .. } { h with
          resting := trivial
          mode := fun _ => h.mode (by simp [hle])
          body := fun _ _ => h.body (by simp [hle]) (by simp [hle])
          completed := by simp
          epoch := by simp }
      | runLanes => exact .rest base h
    | storeCompleted =>
      exact .rest { base with } { h with
        resting := trivial
        mode := fun _ => h.mode (by simp [hle])
        body := fun _ _ => h.body (by simp [hle]) (by simp [hle])
        completed := fun _ => rfl
        epoch := by simp }
    | loadState =>
      exact .rest { base with } { h with
        resting := trivial
        mode := fun _ => h.mode (by simp [hle])
        body := fun _ _ => h.body (by simp [hle]) (by simp [hle])
        completed := fun _ => h.completed (.inl hle)
        epoch := by simp }
    | storeState epoch =>
      cases call with
      | run count => exact h.start_run base hc hle
      | runLanes => exact h.start_lanes base hc hle
    | _ => exact absurd h.resting (by simp [hle, LeaderPc.Resting])

theorem RunActive.leaderStep (hla : 1 ≤ lanes) (base : Base lanes calls s)
    (h : RunActive lanes count calls s) : Inv lanes calls (leaderStep lanes calls fails s) := by
  simp only [KernelPool.leaderStep, h.call]
  rcases h.leader with hl | ⟨hl, hn⟩
  · simp only [hl]
    cases ht : s.take 0 with
    | some t => exact h.stepTake base hla ht fun hw => by simp [hl] at hw
    | none =>
      exact .run count { base with } { h with leader := .inr ⟨rfl, ht⟩ }
  · simp only [hl]
    split
    · next hc => exact h.callReturn base hn hc
    · exact .run count base h

theorem LanesActive.withLeader (base : Base lanes calls s)
    (h : LanesActive lanes calls s) (hl : ¬ leader.Resting ∧ leader ≠ .waitCompleted)
    (hn : s.take 0 = none)
    (hs : ∀ first lane d, leader = .scan first lane d → ∀ l, 1 ≤ l → l < lanes →
      (l < first ∨ d = true ∧ l < lane) → s.shared.done l = some s.shared.word.epoch)
    (ha : ∀ first, leader = .advance first → ∀ l, 1 ≤ l → l < lanes → l < first →
      s.shared.done l = some s.shared.word.epoch) :
    Inv lanes calls { s with leader := leader } :=
  .lanes { base with } { h with
    leader := hl
    waiting := fun _ => hn
    scanned := hs
    advanced := ha }

theorem LanesActive.doneAt (h : LanesActive lanes calls s) (hd : doneAt s lane = true) :
    s.shared.done lane = some s.shared.word.epoch := by
  rw [← h.seen]
  simpa [KernelPool.doneAt] using hd

theorem LanesActive.leaderStep (hla : 1 ≤ lanes) (base : Base lanes calls s)
    (h : LanesActive lanes calls s) : Inv lanes calls (leaderStep lanes calls fails s) := by
  simp only [KernelPool.leaderStep, h.call]
  have hw := h.waiting
  have hld := h.leader
  have hs := h.scanned
  have ha := h.advanced
  cases hle : s.leader with
  | taking =>
    cases ht : s.take 0 with
    | some t => exact h.stepTake base hla ht fun hne => (hne hle).elim
    | none =>
      simp only
      split
      · refine h.withLeader base ⟨id, nofun⟩ ht ?_ nofun
        rintro _ _ _ ⟨⟩ l hl hl' (hlt | ⟨-, hlt⟩) <;> omega
      · exact h.callReturn base ht fun l hl hl' => by omega
  | scan first lane d =>
    have hn := hw (by simp [hle])
    have hc := hs first lane d hle
    simp only
    split
    · next hlt =>
      refine h.withLeader base ⟨id, nofun⟩ hn ?_ nofun
      rintro _ _ _ ⟨⟩ l hl hl' hl''
      simp only [Bool.and_eq_true] at hl''
      by_cases he : l = lane
      · rcases hl'' with hlt' | ⟨⟨hdo, -⟩, -⟩
        · exact hc l hl hl' (.inl hlt')
        · exact h.doneAt (he ▸ hdo)
      · refine hc l hl hl' (hl''.imp_right fun hd => ⟨hd.1.2, ?_⟩)
        omega
    · next hg =>
      split
      · next hdo =>
        exact h.callReturn base hn fun l hl hl' =>
          hc l hl hl' (.inr ⟨hdo, by omega⟩)
      · refine h.withLeader base ⟨id, nofun⟩ hn nofun ?_
        rintro _ ⟨⟩ l hl hl' hlt
        exact hc l hl hl' (.inl hlt)
  | advance first =>
    have hn := hw (by simp [hle])
    have hc := ha first hle
    simp only
    split
    · next hlt =>
      split
      · next hdo =>
        refine h.withLeader base ⟨id, nofun⟩ hn nofun ?_
        rintro _ ⟨⟩ l hl hl' hl''
        by_cases he : l = first
        · exact h.doneAt (he ▸ hdo)
        · exact hc l hl hl' (by omega)
      · refine h.withLeader base ⟨id, nofun⟩ hn ?_ nofun
        rintro _ _ _ ⟨⟩ l hl hl' (hlt' | ⟨-, hlt'⟩) <;> exact hc l hl hl' hlt'
    · next hg => exact h.callReturn base hn fun l hl hl' => hc l hl hl' (by omega)
  | waitCompleted => exact (hld.2 hle).elim
  | _ => exact (hld.1 (by simp [hle, LeaderPc.Resting])).elim

end FsimRuntime.KernelPool

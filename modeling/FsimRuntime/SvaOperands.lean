import FsimRuntime.SvaEvaluation

/-!
# Operators with many operand instances

`step_window` and `step_consequents`: the instances in `started_` are the
undecided ones among those started so far, and none of them had the verdict
that settles the operator early.
-/

namespace FsimRuntime.Sva

open Instance List

variable {Program State : Type} {M : Matcher Program State} {p : Property Program}
  {w : ℕ → Sample} {early : Bool} {s t n m : ℕ} {T T' : ℕ → Prop}
    {started : List (Instance State)}

theorem scan_cases (early : Bool) (advance : Instance State → Instance State)
    (started : List (Instance State)) :
        (∃ vacuous, scan early advance started = .resolved vacuous) ∧
        (∃ operand ∈ started, (advance operand).verdict = .of early) ∨
        (∃ no, scan early advance started =
          .through (started.map advance) no) ∧
            ∀ operand ∈ started, (advance operand).verdict ≠ .of early := by
  induction started with
  | nil => exact .inr ⟨⟨false, rfl⟩, nofun⟩
  | cons operand started ih =>
    simp only [scan]
    by_cases he : (advance operand).verdict = .of early
    · rw [if_pos he]
      exact .inl ⟨⟨_, rfl⟩, operand, by simp, he⟩
    · rw [if_neg he]
      rcases ih with ⟨⟨vacuous, hs⟩, o', hm, hv⟩ | ⟨⟨no, hs⟩, ha⟩
      · rw [hs]
        exact .inl ⟨⟨vacuous, rfl⟩, o', mem_cons_of_mem _ hm, hv⟩
      · rw [hs]
        exact .inr ⟨⟨_, rfl⟩, forall_mem_cons.mpr ⟨he, ha⟩⟩

structure Tracked (M : Matcher Program State) (p : Property Program) (w : ℕ → Sample)
    (early : Bool) (m : ℕ) (T : ℕ → Prop) (started : List (Instance State)) : Prop where
  started : ∃ ticks : List ℕ, started = ticks.map (fun t => run M p w t m) ∧
    ∀ t, t ∈ ticks ↔ T t ∧ (run M p w t m).verdict = .pending
  late : ∀ t, T t → (run M p w t m).verdict ≠ .of early

theorem Tracked.nil (hT : ∀ t, ¬T t) : Tracked M p w early m T [] where
  started := ⟨[], rfl, fun t => by simp [hT t]⟩
  late := fun t ht => absurd ht (hT t)

section
variable (h : Tracked M p w early m T started)
include h

theorem Tracked.congr (hT : ∀ t, T' t ↔ T t) : Tracked M p w early m T' started := by
  obtain rfl : T' = T := funext fun t => propext (hT t)
  exact h

theorem Tracked.add (hm : m ≤ t) :
    Tracked M p w early m (fun t' => T t' ∨ t' = t) (started ++ [fresh t]) where
  started := by
    obtain ⟨ticks, rfl, ht⟩ := h.started
    refine ⟨ticks ++ [t], by simp [run_of_le hm], fun t' => ?_⟩
    rw [mem_append, ht, mem_singleton]
    constructor
    · rintro (⟨hT, hp⟩ | rfl)
      · exact ⟨.inl hT, hp⟩
      · exact ⟨.inr rfl, by rw [run_of_le hm, fresh_verdict]⟩
    · rintro ⟨hT | rfl, hp⟩
      · exact .inl ⟨hT, hp⟩
      · exact .inr rfl
  late := by
    rintro t' (hT | rfl)
    · exact h.late t' hT
    · rw [run_of_le hm]
      exact (Verdict.of_ne_pending early).symm

theorem Tracked.scan : (∃ vacuous, scan early (step M m (w m) p) started = .resolved vacuous) ∧
        (∃ t, T t ∧ (run M p w t (m + 1)).verdict = .of early) ∨
      ∃ s' no, scan early (step M m (w m) p) started = .through s' no ∧
        Tracked M p w early (m + 1) T (s'.filter fun operand => !operand.decided) := by
  obtain ⟨ticks, rfl, hts⟩ := h.started
  have hm : (ticks.map fun t => run M p w t m).map (step M m (w m) p) =
      ticks.map fun t => run M p w t (m + 1) := by
    rw [map_map]
    rfl
  rcases scan_cases early (step M m (w m) p) (ticks.map fun t => run M p w t m) with
    ⟨hs, operand, hme, hv⟩ | ⟨⟨no, hs⟩, ha⟩
  · obtain ⟨t, ht, rfl⟩ := mem_map.mp hme
    exact .inl ⟨hs, t, ((hts t).mp ht).1, hv⟩
  · refine .inr ⟨_, no, hs, ?_, fun t hT hv => ?_⟩
    · refine ⟨ticks.filter fun t => !(run M p w t (m + 1)).decided, ?_, fun t => ?_⟩
      · rw [hm, filter_map]
        rfl
      · rw [mem_filter, hts, Bool.not_eq_true', decided_eq_false]
        refine ⟨fun ht => ⟨ht.1.1, ht.2⟩, fun ht => ⟨⟨ht.1, ?_⟩, ht.2⟩⟩
        -- Without a verdict after the tick, it had none before it.
        rcases Verdict.cases_of (run M p w t m).verdict with hp | ⟨value, hva⟩
        · exact hp
        · have := ht.2
          rw [run_decided hva (Nat.le_succ m), hva] at this
          exact absurd this (Verdict.of_ne_pending value)
    · rcases Verdict.cases_of (run M p w t m).verdict with hp | ⟨value, hva⟩
      · exact ha _ (mem_map.mpr ⟨t, (hts t).mpr ⟨hT, hp⟩, rfl⟩) hv
      · rw [run_decided hva (Nat.le_succ m)] at hv
        exact h.late t hT hv

theorem Tracked.isEmpty :
    started.isEmpty = true ↔ ∀ t, T t → (run M p w t m).verdict = .of (!early) := by
  obtain ⟨ticks, rfl, ht⟩ := h.started
  rw [List.isEmpty_iff, List.map_eq_nil_iff, List.eq_nil_iff_forall_not_mem]
  refine forall_congr' fun t => ?_
  rw [ht, not_and]
  refine imp_congr_right fun hT => ?_
  have hl := h.late t hT
  cases hv : (run M p w t m).verdict <;> rw [hv] at hl <;> cases early <;> simp_all [Verdict.of]

end

section Window

variable {lo : ℕ} {hi : Option ℕ}

theorem settled_window_early : Settled M w (.window early lo hi p) early n s ↔
    ∃ t, InWindow lo hi s t ∧ Settled M w p early n t := by simp [Settled]

theorem settled_window_late : Settled M w (.window early lo hi p) (!early) n s ↔
    (∃ h ∈ hi, s + h < n) ∧ ∀ t, InWindow lo hi s t → Settled M w p (!early) n t := by
  simp [Settled]

theorem Tracked.window_step
    (h : Tracked M p w early m (fun t => InWindow lo hi s t ∧ t < m) started) :
    Tracked M p w early m (fun t => InWindow lo hi s t ∧ t < m + 1)
      (if s + lo ≤ m ∧ ∀ h ∈ hi, m ≤ s + h then started ++ [fresh m] else started) := by
  split
  · next hin =>
    refine (h.add le_rfl).congr fun t => ?_
    constructor
    · rintro ⟨ht, htm⟩
      rcases Nat.lt_succ_iff_lt_or_eq.mp htm with hl | rfl
      · exact .inl ⟨ht, hl⟩
      · exact .inr rfl
    · rintro (⟨ht, htm⟩ | rfl)
      · exact ⟨ht, by omega⟩
      · exact ⟨hin, by omega⟩
  · next ho =>
    refine h.congr fun t =>
      ⟨fun ⟨ht, htm⟩ => ⟨ht, ?_⟩, fun ⟨ht, htm⟩ => ⟨ht, by omega⟩⟩
    rcases Nat.lt_succ_iff_lt_or_eq.mp htm with hl | rfl
    · exact hl
    · exact absurd ht ho

theorem Agrees.window (h : ∀ m ≤ n, ∀ t < m, InWindow lo hi s t → Agrees M p w t m) :
    Agrees M (.window early lo hi p) w s n := by
  refine agrees_of_shape (fun m i => i.start = s ∧
    Tracked M p w early m (fun t => InWindow lo hi s t ∧ t < m) i.started) ?_ ?_
  · exact ⟨rfl, .nil fun t ht => absurd ht.1.1 (by omega)⟩
  · rintro m hsm hm i hp ⟨rfl, htr⟩
    have ha : ∀ t, InWindow lo hi i.start t → t < m + 1 → Agrees M p w t (m + 1) :=
      fun t ht htm => h (m + 1) hm t htm ht
    have ht' := htr.window_step
    rw [step, unlessIdle_active hp hsm]
    simp only [stepWindow, apply_ite Instance.started, apply_ite Instance.start, ite_self]
    rcases ht'.scan with ⟨⟨vacuous, hsc⟩, t, ⟨ht, htm⟩, hv⟩ |
      ⟨started', nonvacuous, hsc, hn⟩
    · simp only [hsc]
      have hs : Settled M w (.window early lo hi p) early (m + 1) i.start :=
        settled_window_early.mpr ⟨t, ht, (ha t ht htm _).mp hv⟩
      exact ⟨hs.of_iff, fun h => absurd h (by simp)⟩
    · simp only [hsc]
      have he : ¬Settled M w (.window early lo hi p) early (m + 1) i.start := by
        rw [settled_window_early]
        rintro ⟨t, ht, hs⟩
        exact hn.late t ⟨ht, hs.lt⟩ ((ha t ht hs.lt _).mpr hs)
      have hl : Settled M w (.window early lo hi p) (!early) (m + 1) i.start ↔
          (hi.any (fun h => i.start + h ≤ m) && (started'.filter fun o => !o.decided).isEmpty) =
            true := by
        rw [settled_window_late, Bool.and_eq_true, hn.isEmpty, Option.any_eq_true]
        simp only [decide_eq_true_eq, ← Nat.lt_succ_iff]
        refine and_congr_right fun ⟨h', hh, hlt⟩ => ?_
        constructor
        · exact fun hal t ⟨ht, htm⟩ => (ha t ht htm _).mpr (hal t ht)
        · intro hal t ht
          have htm : t < m + 1 := by
            have := ht.2 h' hh
            omega
          exact (ha t ht htm _).mp (hal t ⟨ht, htm⟩)
      by_cases hc : (hi.any (fun h => i.start + h ≤ m) &&
          (started'.filter fun o => !o.decided).isEmpty) = true
      · have hs := hl.mpr hc
        rw [if_pos hc]
        exact ⟨hs.of_iff, fun h => absurd h (by simp)⟩
      · rw [if_neg hc]
        refine ⟨fun value => iff_of_false ?_ (not_settled he (mt hl.mp hc) value),
          fun _ => ⟨?_, hn⟩⟩
        · split <;> simp [hp, (Verdict.of_ne_pending value).symm]
        · split <;> rfl

end Window

section Consequents

variable {overlap : Bool} {a : Program} {i : Instance State}

theorem settled_consequents_early : Settled M w (.consequents early overlap a p) early n s ↔
    ∃ e < n, M.Matched a w s e ∧ Settled M w p early n (next overlap e) := by simp [Settled]

theorem settled_consequents_late : Settled M w (.consequents early overlap a p) (!early) n s ↔
      M.DeadBy a w s n ∧ ∀ e < n, M.Matched a w s e → Settled M w p (!early) n
      (next overlap e) := by
  simp [Settled]

def Follows (M : Matcher Program State) (overlapped : Bool) (antecedent : Program)
    (w : ℕ → Sample) (s m t : ℕ) : Prop :=
  ∃ e < m, M.Matched antecedent w s e ∧ t = next overlapped e

theorem follows_succ : Follows M overlap a w s (m + 1) t ↔ Follows M overlap a w s m t ∨
      M.Matched a w s m ∧ t = next overlap m := by
  constructor
  · rintro ⟨e, he, hma, rfl⟩
    rcases Nat.lt_succ_iff_lt_or_eq.mp he with hl | rfl
    · exact .inl ⟨e, hl, hma, rfl⟩
    · exact .inr ⟨hma, rfl⟩
  · rintro (⟨e, he, hr⟩ | hm)
    · exact ⟨e, by omega, hr⟩
    · exact ⟨m, by omega, hm⟩

structure Following (M : Matcher Program State) (p : Property Program) (w : ℕ → Sample)
    (early overlapped : Bool) (antecedent : Program) (s m : ℕ) (T : ℕ → Prop)
    (i : Instance State) : Prop where
  start : i.start = s
  done : i.antecedentDone = true ↔ M.DeadBy antecedent w s m
  matcher : i.antecedentDone = false →
    i.matcher.getD (M.start antecedent s) = M.stateAt antecedent w s m
  tracked : Tracked M p w early m T i.started

theorem stepAntecedent_verdict {now : ℕ} {sample : Sample} :
    (stepAntecedent M overlap a now sample i).verdict = i.verdict := by
  simp only [stepAntecedent]
  split_ifs <;> rfl

theorem Following.step_antecedent (h : Following M p w early overlap a s m
    (Follows M overlap a w s m) i) (hsm : s ≤ m) :
    let i' := stepAntecedent M overlap a m (w m) i
    i'.start = s ∧ (i'.antecedentDone = true ↔ M.DeadBy a w s (m + 1)) ∧
      (i'.antecedentDone = false →
        i'.matcher.getD (M.start a s) = M.stateAt a w s (m + 1)) ∧
      Tracked M p w early m (Follows M overlap a w s (m + 1)) i'.started := by
  obtain ⟨rfl, hdo, hmt, ht⟩ := h
  have hs : M.stateAt a w i.start (m + 1) = _ := Matcher.stateAt_succ hsm
  simp only [stepAntecedent]
  cases he : i.antecedentDone with
  | true =>
    have hd := hdo.mp he
    refine ⟨rfl, iff_of_true he (hd.mono (Nat.le_succ m)), fun h => by simp [he] at h,
      ht.congr fun t => ?_⟩
    rw [follows_succ, or_iff_left]
    exact fun hm => absurd (hd.lt hm.1) (lt_irrefl m)
  | false =>
    have hma : M.Matched a w i.start m ↔
        (M.step a (M.stateAt a w i.start m) m (w m)).1 = true :=
      ⟨fun h => h.2, fun h => ⟨hsm, h⟩⟩
    have hd : M.DeadBy a w i.start (m + 1) ↔
        M.dead (M.step a (M.stateAt a w i.start m) m (w m)).2 = true := by
      rw [← hs]
      exact ⟨fun h => h.2, fun h => ⟨by omega, h⟩⟩
    have hst : Tracked M p w early m (Follows M overlap a w i.start (m + 1))
        (if (M.step a (M.stateAt a w i.start m) m (w m)).1 = true then
          i.started ++ [fresh (next overlap m)] else i.started) := by
      split_ifs with hm
      · exact (ht.add le_next).congr fun t => by rw [follows_succ, hma, and_iff_right hm]
      · refine ht.congr fun t => ?_
        rw [follows_succ, hma, or_iff_left]
        exact fun h => hm h.1
    refine ⟨?_, ?_, ?_, ?_⟩
    · split_ifs <;> rfl
    · split_ifs <;> simp_all
    · split_ifs <;> simp_all
    · split_ifs <;> simp_all [next]

theorem Agrees.consequents
    (h : ∀ m ≤ n, ∀ e < m, M.Matched a w s e → Agrees M p w (next overlap e) m) :
    Agrees M (.consequents early overlap a p) w s n := by
  refine agrees_of_shape (fun m i => Following M p w early overlap a s m
    (Follows M overlap a w s m) i) ?_ ?_
  · refine ⟨rfl, iff_of_false Bool.false_ne_true fun h => lt_irrefl _ h.1, fun _ =>
      (Matcher.stateAt_of_le le_rfl).symm, .nil ?_⟩
    rintro t ⟨e, he, ⟨hse, -⟩, -⟩
    omega
  · intro m hsm hmn i hp hf
    have ha : ∀ e < m + 1, M.Matched a w s e →
        Agrees M p w (next overlap e) (m + 1) := h (m + 1) hmn
    have hst := hf.start
    obtain ⟨hs', hd, hma, ht⟩ := hf.step_antecedent hsm
    rw [step, unlessIdle_active hp (hst ▸ hsm)]
    simp only [stepConsequents]
    have hp' : (stepAntecedent M overlap a m (w m) i).verdict = .pending :=
      stepAntecedent_verdict.trans hp
    generalize stepAntecedent M overlap a m (w m) i = i' at *
    rcases ht.scan with ⟨⟨vacuous, hsc⟩, t, ⟨e, he, hm, rfl⟩, hv⟩ |
      ⟨started', nonvacuous, hsc, hn⟩
    · simp only [hsc]
      have hs : Settled M w (.consequents early overlap a p) early (m + 1) s :=
        settled_consequents_early.mpr ⟨e, he, hm, (ha e he hm _).mp hv⟩
      exact ⟨hs.of_iff, fun h => absurd h (by simp)⟩
    · simp only [hsc]
      have hea : ¬Settled M w (.consequents early overlap a p) early (m + 1) s := by
        rw [settled_consequents_early]
        rintro ⟨e, he, hm, hs⟩
        exact hn.late _ ⟨e, he, hm, rfl⟩ ((ha e he hm _).mpr hs)
      have hl : Settled M w (.consequents early overlap a p) (!early) (m + 1) s ↔
          (i'.antecedentDone && (started'.filter fun o => !o.decided).isEmpty) = true := by
        rw [settled_consequents_late, Bool.and_eq_true, hn.isEmpty, hd]
        refine and_congr_right fun _ => ⟨?_, fun hal e he hm => ?_⟩
        · rintro hal t ⟨e, he, hm, rfl⟩
          exact (ha e he hm _).mpr (hal e he hm)
        · exact (ha e he hm _).mp (hal _ ⟨e, he, hm, rfl⟩)
      by_cases hc : (i'.antecedentDone && (started'.filter fun o => !o.decided).isEmpty) = true
      · rw [if_pos hc]
        exact ⟨(hl.mpr hc).of_iff, fun h => absurd h (by simp)⟩
      · rw [if_neg hc]
        exact ⟨fun value => iff_of_false (by simp [hp', (Verdict.of_ne_pending value).symm])
          (not_settled hea (mt hl.mp hc) value), fun _ => ⟨hs', hd, hma, hn⟩⟩

end Consequents

end FsimRuntime.Sva

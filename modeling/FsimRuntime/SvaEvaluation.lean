import FsimRuntime.SvaSemantics

/-!
# Stepping an instance

What a step does with the verdicts of the operands, operator by operator. An
operand that is stepped with its parent is the run of its own attempt, so the
state of an instance without a verdict is described by the runs of its
operands.
-/

namespace FsimRuntime.Sva

open Instance

-- the equations are made here, once for all the lemmas that use them
attribute [local grind =] step run Settled Sat stepAntecedent stepConsequents stepWindow stepUntil
  unlessIdle follow

section Verdicts

variable {State : Type} {i left right : Instance State} {k : Connective} {now start : ℕ}
  {value : Bool}

@[simp]
theorem Verdict.of_ne_pending (value : Bool) : Verdict.of value ≠ .pending := by
  cases value <;> simp [Verdict.of]

@[simp]
theorem Verdict.of_inj {v' : Bool} : Verdict.of value = .of v' ↔ value = v' := by
  cases value <;> cases v' <;> simp [Verdict.of]

theorem Verdict.cases_of (v : Verdict) : v = .pending ∨ ∃ value, v = .of value := by
  cases v with
  | pending => exact .inl rfl
  | holds => exact .inr ⟨true, rfl⟩
  | fails => exact .inr ⟨false, rfl⟩

@[simp]
theorem fresh_verdict : (fresh start : Instance State).verdict = .pending := rfl

@[simp]
theorem fresh_start : (fresh start : Instance State).start = start := rfl

@[simp]
theorem resolve_verdict {holds vacuous : Bool} : (i.resolve holds vacuous).verdict = .of holds :=
  rfl

theorem decided_eq_false : i.decided = false ↔ i.verdict = .pending := by simp [decided]

theorem holds_eq_true : i.holds = true ↔ i.verdict = .of true := by simp [holds, Verdict.of]

theorem fails_eq_true : i.fails = true ↔ i.verdict = .of false := by simp [fails, Verdict.of]

theorem unlessIdle_active {b : Instance State → Instance State} (hp : i.verdict = .pending)
    (hs : i.start ≤ now) : unlessIdle now b i = b i := by
  rw [unlessIdle, decided_eq_false.mpr hp, if_neg]
  simpa using hs

theorem follow_verdict (hp : i.verdict = .pending) : (i.follow left).verdict = left.verdict := by
  rw [follow]
  cases hl : left.verdict <;> simp [decided, holds, hl, hp, Verdict.of]

theorem follow_pending (h : (i.follow left).verdict = .pending) : i.follow left = i := by
  rw [follow] at h ⊢
  split at h
  · simp at h
  · next hd => rw [if_neg hd]

theorem combine_verdict (hp : i.verdict = .pending) :
    (combine k i left right).verdict = .of value ↔
      k.Settles (fun v => left.verdict = .of v) (fun v => right.verdict = .of v) value := by
  cases k <;> cases value <;> cases hl : left.verdict <;> cases hr : right.verdict <;>
    simp [combine, Connective.Settles, decided, Instance.holds, fails, hl, hr, hp, Verdict.of]

theorem combine_pending (h : (combine k i left right).verdict = .pending) :
    combine k i left right = i := by
  cases k <;> simp only [combine] at h ⊢ <;> split_ifs at h ⊢ <;> simp_all

end Verdicts

variable {Program State : Type} {M : Matcher Program State} {p l r : Property Program}
  {w : ℕ → Sample} {s t n m : ℕ} {value e : Bool} {g : ℕ}

theorem step_idle {i : Instance State} {now : ℕ} {sample : Sample}
    (h : (i.decided || now < i.start) = true) : step M now sample p i = i := by
  cases p <;> exact if_pos h

theorem run_of_le (h : n ≤ s) : run M p w s n = fresh s := by
  induction n with
  | zero => rfl
  | succ n ih =>
    rw [run, ih (by omega)]
    refine step_idle ?_
    rw [fresh_start, decide_eq_true (by omega), Bool.or_true]

theorem step_run : step M m (w m) p (run M p w s m) = run M p w s (m + 1) := rfl

theorem run_decided (h : (run M p w s n).verdict = .of value) (hn : n ≤ m) :
    run M p w s m = run M p w s n := by
  induction m, hn using Nat.le_induction with
  | base => rfl
  | succ m _ ih =>
    rw [run, ih]
    exact step_idle (by simp [decided, h])

def Agrees (M : Matcher Program State) (p : Property Program) (w : ℕ → Sample)
    (s n : ℕ) : Prop :=
  ∀ value, (run M p w s n).verdict = .of value ↔ Settled M w p value n s

theorem Agrees.pending (h : Agrees M p w s n) :
    (run M p w s n).verdict = .pending ↔ ∀ value, ¬Settled M w p value n s := by
  constructor
  · intro hp value hs
    exact Verdict.of_ne_pending value (((h value).mpr hs).symm.trans hp)
  · intro hn
    rcases Verdict.cases_of (run M p w s n).verdict with hp | ⟨value, hv⟩
    · exact hp
    · exact absurd ((h value).mp hv) (hn value)

theorem agrees_of_le (h : n ≤ s) : Agrees M p w s n := by
  intro value
  rw [run_of_le h]
  exact iff_of_false (Verdict.of_ne_pending value).symm fun hs => absurd hs.lt (by omega)

theorem Settled.of_iff (h : Settled M w p value n s) (v' : Bool) :
    Verdict.of value = .of v' ↔ Settled M w p v' n s := by
  rw [Verdict.of_inj]
  exact ⟨fun he => he ▸ h, fun h' => h.unique h'⟩

theorem not_settled (he : ¬Settled M w p e n s)
    (hl : ¬Settled M w p (!e) n s) (value : Bool) : ¬Settled M w p value n s := by
  by_cases hv : value = e
  · exact hv ▸ he
  · exact Bool.eq_not.mpr hv ▸ hl

theorem agrees_of_shape (Shape : ℕ → Instance State → Prop) (hf : Shape s (fresh s))
    (hst : ∀ m, s ≤ m → m < n → ∀ i, i.verdict = .pending → Shape m i →
      (∀ value, (step M m (w m) p i).verdict = .of value ↔ Settled M w p value (m + 1) s) ∧
        ((step M m (w m) p i).verdict = .pending → Shape (m + 1) (step M m (w m) p i))) :
    Agrees M p w s n := by
  suffices h : ∀ m ≤ n, Agrees M p w s m ∧
      (s ≤ m → (run M p w s m).verdict = .pending →
        Shape m (run M p w s m)) from (h n le_rfl).1
  intro m hmn
  induction m with
  | zero =>
    refine ⟨agrees_of_le (Nat.zero_le s), fun hs _ => ?_⟩
    obtain rfl : s = 0 := by omega
    exact hf
  | succ m ih =>
    obtain ⟨ha, hsh⟩ := ih (by omega)
    rcases lt_or_ge m s with hm | hsm
    · refine ⟨agrees_of_le hm, fun hs _ => ?_⟩
      rw [run_of_le hm]
      obtain rfl : s = m + 1 := by omega
      exact hf
    · rcases Verdict.cases_of (run M p w s m).verdict with hp | ⟨value, hv⟩
      · obtain ⟨hve, hn⟩ := hst m hsm (by omega) _ hp (hsh hsm hp)
        exact ⟨hve, fun _ => hn⟩
      · have hr := run_decided hv (Nat.le_succ m)
        have hse := ((ha value).mp hv).mono (Nat.le_succ m)
        rw [Agrees, hr, hv]
        exact ⟨hse.of_iff, fun _ hp => absurd hp (by simp)⟩

theorem Agrees.sequence {strong : Bool} {program : Program} :
    Agrees M (.sequence strong program) w s n := by
  refine agrees_of_shape (fun m i => i.start = s ∧
    i.matcher.getD (M.start program s) = M.stateAt program w s m ∧
      ∀ e < m, ¬M.Matched program w s e) ?_ ?_
  · exact ⟨rfl, (Matcher.stateAt_of_le le_rfl).symm, fun e he h => absurd h.1 (by omega)⟩
  · rintro m hsm - i hp ⟨rfl, hmt, hno⟩
    have hs : M.stateAt program w i.start (m + 1) = _ := Matcher.stateAt_succ hsm
    have hma : M.Matched program w i.start m ↔
        (M.step program (M.stateAt program w i.start m) m (w m)).1 = true :=
      ⟨fun h => h.2, fun h => ⟨hsm, h⟩⟩
    have hde : M.DeadBy program w i.start (m + 1) ↔
        M.dead (M.step program (M.stateAt program w i.start m) m (w m)).2 = true := by
      rw [← hs]
      exact ⟨fun h => h.2, fun h => ⟨by omega, h⟩⟩
    have ha : (∃ e < m + 1, M.Matched program w i.start e) ↔ M.Matched program w i.start m := by
      constructor
      · rintro ⟨e, he, h⟩
        rcases Nat.lt_succ_iff_lt_or_eq.mp he with hl | rfl
        · exact absurd h (hno e hl)
        · exact h
      · exact fun h => ⟨m, by omega, h⟩
    have hn : (∀ e < m + 1, ¬M.Matched program w i.start e) ↔
        ¬M.Matched program w i.start m := by
      rw [← ha]
      simp
    rw [step, unlessIdle_active hp hsm]
    simp only [hmt]
    by_cases hm : (M.step program (M.stateAt program w i.start m) m (w m)).1 = true
    · rw [if_pos hm]
      refine ⟨fun value => ?_, fun h => absurd h (by simp)⟩
      cases value <;> simp only [Settled, ha, hn, hma, hm] <;> simp
    · rw [if_neg hm]
      by_cases hd : M.dead (M.step program (M.stateAt program w i.start m) m (w m)).2 = true
      · rw [if_pos hd]
        refine ⟨fun value => ?_, fun h => absurd h (by simp)⟩
        cases value <;> simp only [Settled, ha, hn, hma, hde, hm, hd] <;> simp
      · rw [if_neg hd]
        refine ⟨fun value => ?_, fun _ => ⟨rfl, hs.symm, hn.mpr (by rwa [hma])⟩⟩
        cases value <;> simp only [Settled, ha, hma, hde, hm, hd] <;> simp [hp, Verdict.of]

theorem Agrees.negation (h : ∀ m ≤ n, Agrees M p w s m) : Agrees M (.negation p) w s n := by
  refine agrees_of_shape (fun m i => i.start = s ∧ i.left.getD (fresh s) = run M p w s m) ?_ ?_
  · exact ⟨rfl, (run_of_le le_rfl).symm⟩
  · rintro m hs hm i hp ⟨rfl, hl⟩
    rw [step, unlessIdle_active hp hs]
    simp only [hl, step_run, Settled]
    have ha := h (m + 1) hm
    rcases Verdict.cases_of (run M p w i.start (m + 1)).verdict with hn | ⟨value, hv⟩
    · rw [if_neg (by simp [decided, hn])]
      refine ⟨fun value => ?_, fun _ => ⟨rfl, rfl⟩⟩
      rw [← ha, hn, hp]
      exact iff_of_false (Verdict.of_ne_pending _).symm (Verdict.of_ne_pending _).symm
    · rw [if_pos (by simp [decided, hv])]
      refine ⟨fun v' => ?_, fun h => absurd h (by simp)⟩
      rw [← ha, resolve_verdict]
      cases value <;> cases v' <;> simp [Instance.holds, hv, Verdict.of]

theorem Agrees.connective {k : Connective} (hl : ∀ m ≤ n, Agrees M l w s m)
    (hr : ∀ m ≤ n, Agrees M r w s m) : Agrees M (.connective k l r) w s n := by
  refine agrees_of_shape (fun m i => i.start = s ∧ i.left.getD (fresh s) = run M l w s m ∧
    i.right.getD (fresh s) = run M r w s m) ?_ ?_
  · exact ⟨rfl, (run_of_le le_rfl).symm, (run_of_le le_rfl).symm⟩
  · rintro m hs hm i hp ⟨rfl, hle, hri⟩
    rw [step, unlessIdle_active hp hs]
    simp only [hle, hri, step_run]
    refine ⟨fun value => ?_, fun h => ?_⟩
    · rw [combine_verdict (by exact hp)]
      simp only [hl (m + 1) hm _, hr (m + 1) hm _]
      rfl
    · rw [combine_pending h]
      exact ⟨rfl, rfl, rfl⟩

theorem Agrees.nexttime {lo : ℕ} (h : ∀ m ≤ n, Agrees M p w (s + lo) m) :
    Agrees M (.nexttime lo p) w s n := by
  refine agrees_of_shape (fun m i => i.start = s ∧
    i.left.getD (fresh (s + lo)) = run M p w (s + lo) m) ?_ ?_
  · exact ⟨rfl, (run_of_le (Nat.le_add_right ..)).symm⟩
  · rintro m hs hm i hp ⟨rfl, hl⟩
    rw [step, unlessIdle_active hp hs]
    simp only [hl]
    refine ⟨fun value => ?_, fun h => ?_⟩
    · rw [follow_verdict (by exact hp)]
      exact h (m + 1) hm value
    · rw [follow_pending h]
      exact ⟨rfl, rfl⟩

theorem Agrees.conditional (hl : w s g = true → ∀ m ≤ n, Agrees M l w s m)
    (hr : w s g = false → ∀ m ≤ n, Agrees M r w s m) :
    Agrees M (.conditional g l r) w s n := by
  refine agrees_of_shape (fun m i => i.start = s ∧
    (∀ b, (m = s → b = w s g) → i.chosen.getD b = w s g) ∧
    (w s g = true → i.left.getD (fresh s) = run M l w s m) ∧
    (w s g = false → i.right.getD (fresh s) = run M r w s m)) ?_ ?_
  · exact ⟨rfl, fun b hb => hb rfl, fun _ => (run_of_le le_rfl).symm,
      fun _ => (run_of_le le_rfl).symm⟩
  · rintro m hs hm i hp ⟨rfl, hc, hle, hri⟩
    have hbr := hc (w m g) (fun h => h ▸ rfl)
    rw [step, unlessIdle_active hp hs]
    simp only [hbr, Settled]
    cases hg : w i.start g with
    | true =>
      simp only [if_true, hle hg]
      refine ⟨fun value => ?_, fun h => ?_⟩
      · rw [follow_verdict (by exact hp)]
        exact hl hg (m + 1) hm value
      · rw [follow_pending h]
        exact ⟨rfl, fun _ _ => rfl, fun _ => rfl, nofun⟩
    | false =>
      simp only [if_false, Bool.false_eq_true, hri hg]
      refine ⟨fun value => ?_, fun h => ?_⟩
      · rw [follow_verdict (by exact hp)]
        exact hr hg (m + 1) hm value
      · rw [follow_pending h]
        exact ⟨rfl, fun _ _ => rfl, nofun, fun _ => rfl⟩

theorem Agrees.conditionalAlone (h : w s g = true → ∀ m ≤ n, Agrees M p w s m) :
    Agrees M (.conditionalAlone g p) w s n := by
  refine agrees_of_shape (fun m i => i.start = s ∧
    (∀ b, (m = s → b = w s g) → i.chosen.getD b = w s g) ∧
    (w s g = true → i.left.getD (fresh s) = run M p w s m)) ?_ ?_
  · exact ⟨rfl, fun b hb => hb rfl, fun _ => (run_of_le le_rfl).symm⟩
  · rintro m hs hm i hp ⟨rfl, hc, hl⟩
    have hbr := hc (w m g) (fun h => h ▸ rfl)
    rw [step, unlessIdle_active hp hs]
    simp only [hbr, Settled]
    cases hg : w i.start g with
    | true =>
      simp only [if_true, hl hg]
      refine ⟨fun value => ?_, fun h => ?_⟩
      · rw [follow_verdict (by exact hp)]
        exact h hg (m + 1) hm value
      · rw [follow_pending h]
        exact ⟨rfl, fun _ _ => rfl, fun _ => rfl⟩
    | false =>
      simp only [if_false, Bool.false_eq_true, resolve_verdict, Verdict.of_inj]
      refine ⟨fun value => ?_, fun h => absurd h (by simp)⟩
      exact ⟨fun h => ⟨h.symm, by omega⟩, fun h => h.1.symm⟩

theorem Agrees.abort
    (h : ∀ m ≤ n, (∀ i < m, s ≤ i → w i g = false) → Agrees M p w s m) :
    Agrees M (.abort e g p) w s n := by
  refine agrees_of_shape (fun m i => i.start = s ∧ i.left.getD (fresh s) = run M p w s m ∧
    (run M p w s m).verdict = .pending ∧ ∀ i < m, s ≤ i → w i g = false) ?_ ?_
  · refine ⟨rfl, (run_of_le le_rfl).symm, ?_, fun i hi hsi => absurd hsi (by omega)⟩
    rw [run_of_le le_rfl, fresh_verdict]
  · rintro m hsm hm i hp ⟨rfl, hl, ho, hq⟩
    rw [step, unlessIdle_active hp hsm]
    cases hg : w m g with
    | true =>
      have hn := (h m hm.le hq).pending.mp ho
      simp only [if_true]
      refine ⟨fun value => ?_, fun h => absurd h (by simp)⟩
      rw [resolve_verdict, Verdict.of_inj, Settled]
      split_ifs with hv
      · exact iff_of_true hv.symm (.inr ⟨m, by omega, hsm, hg, hn _⟩)
      · refine iff_of_false (fun h => hv h.symm) fun hs => ?_
        exact hn _ (hs.2 m (by omega) hsm hg)
    | false =>
      have hq' : ∀ j < m + 1, i.start ≤ j → w j g = false := by
        intro j hj hsj
        rcases Nat.lt_succ_iff_lt_or_eq.mp hj with hlt | rfl
        · exact hq j hlt hsj
        · exact hg
      have ha := h (m + 1) hm hq'
      simp only [if_false, Bool.false_eq_true, hl, step_run]
      refine ⟨fun value => ?_, fun h => ?_⟩
      · rw [follow_verdict (by exact hp), ha, Settled]
        split_ifs
        · refine ⟨.inl, ?_⟩
          rintro (hs | ⟨j, hj, hsj, ht, -⟩)
          · exact hs
          · exact absurd (hq' j hj hsj) (by simp [ht])
        · exact ⟨fun hs => ⟨hs, fun j hj hsj ht =>
            absurd (hq' j hj hsj) (by simp [ht])⟩, fun hs => hs.1⟩
      · have ho' := h
        rw [follow_verdict (by exact hp)] at ho'
        rw [follow_pending h]
        exact ⟨rfl, rfl, ho', hq'⟩

theorem Agrees.vacuous : Agrees M .vacuous w s n := by
  refine agrees_of_shape (fun _ i => i.start = s) rfl ?_
  rintro m hs - i hp rfl
  rw [step, unlessIdle_active hp hs]
  refine ⟨fun value => ?_, fun h => absurd h (by simp)⟩
  simp only [resolve_verdict, Verdict.of_inj]
  exact ⟨fun h => ⟨h.symm, by omega⟩, fun h => h.1.symm⟩

end FsimRuntime.Sva

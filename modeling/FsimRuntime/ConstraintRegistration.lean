import FsimRuntime.ConstraintProblem

/-!
# What registration guarantees

Every registered solver keeps its domains at their variables' widths and within
a machine word, knows the variables of its clauses and pairs, and weighs a
domain value exactly when a distribution's entry with a weight holds it.
-/

namespace FsimRuntime.Constraint
open List

open Simir (Value)

section Weights

variable {i : Variable} {entry : Entry} {e : List Entry} {d extended : ℕ} {w : List ℕ}

theorem extendDenominator_spec (h : extendDenominator i d entry = .ok extended) (hp : d ≠ 0) :
    d ∣ extended ∧ extended ≠ 0 ∧
    (entryMatches i entry ≠ 0 → entryDivisor i entry ∣ extended) := by
  unfold extendDenominator at h
  dsimp only at h
  split_ifs at h with hv ha ho
  · cases h
    have hg : Nat.gcd d (entryMatches i entry) ∣ entryMatches i entry :=
      Nat.gcd_dvd_right _ _
    refine ⟨Nat.dvd_mul_right _ _, ?_, fun _ => ?_⟩
    · refine Nat.mul_ne_zero hp ?_
      have := Nat.div_pos (Nat.le_of_dvd (Nat.pos_of_ne_zero ha.2) hg)
        (Nat.gcd_pos_of_pos_right _ (Nat.pos_of_ne_zero ha.2))
      omega
    · rw [entryDivisor, if_pos ha.1, ← Nat.mul_div_assoc _ hg]
      exact Nat.dvd_lcm_right d (entryMatches i entry)
  · cases h
    refine ⟨dvd_rfl, hp, fun hm => ?_⟩
    rw [entryDivisor, if_neg fun hk => ha ⟨hk, hm⟩]
    exact one_dvd _

theorem denominator_spec {start : ℕ}
    (h : e.foldlM (extendDenominator i) start = .ok d) (hp : start ≠ 0) : start ∣ d ∧
      d ≠ 0 ∧ ∀ entry ∈ e, entryMatches i entry ≠ 0 → entryDivisor i entry ∣ d := by
  induction e generalizing start with
  | nil =>
    cases h
    exact ⟨dvd_rfl, hp, by simp⟩
  | cons entry e ih =>
    obtain ⟨extended, he, h⟩ := foldlM_cons_ok.mp h
    obtain ⟨hs, hn, hdi⟩ := extendDenominator_spec he hp
    obtain ⟨hdv, hd, ha⟩ := ih h hn
    refine ⟨hs.trans hdv, hd, fun o ho hm => ?_⟩
    rcases mem_cons.mp ho with rfl | ho
    · exact (hdi hm).trans hdv
    · exact ha o ho hm

structure Weighs (item : Variable) (entries : List Entry) (weights : List ℕ) : Prop where
  length : weights.length = item.domain.length
  nonzero : ∀ index (h : index < item.domain.length), weights.getD index 0 ≠ 0 ↔
    ∃ entry ∈ entries, entry.weight ≠ 0 ∧
    inEntry item.profile.signedValue entry item.domain[index] = true

theorem scaled_weight {w c : ℕ} {inside : Bool}
    (h : (if inside then addContribution c w else .ok w) = .ok extended)
    (hc : c ≠ 0 ↔ entry.weight ≠ 0) :
    extended ≠ 0 ↔ w ≠ 0 ∨ entry.weight ≠ 0 ∧ inside = true := by
  cases inside with
  | false =>
    cases h
    simp
  | true =>
    simp only [if_true, addContribution] at h
    split_ifs at h
    cases h
    simp only [and_true]
    omega

theorem addEntry_spec {extended : List ℕ}
    (h : addEntry i d w entry = .ok extended) (hw : Weighs i e w) (hp : d ≠ 0)
    (hdi : entryMatches i entry ≠ 0 → entryDivisor i entry ∣ d) :
    Weighs i (e ++ [entry]) extended := by
  have hl (index : ℕ) (hin : index < i.domain.length) :
      (∃ o ∈ e ++ [entry], o.weight ≠ 0 ∧
        inEntry i.profile.signedValue o i.domain[index] = true) ↔
      w.getD index 0 ≠ 0 ∨
        entry.weight ≠ 0 ∧ inEntry i.profile.signedValue entry i.domain[index] = true := by
    rw [hw.nonzero index hin]
    simp
  unfold addEntry at h
  by_cases hm : entryMatches i entry = 0
  · rw [if_pos hm] at h
    cases h
    refine ⟨hw.length, fun index hin => ?_⟩
    have ho := countP_eq_zero.mp hm i.domain[index] (getElem_mem hin)
    rw [hl index hin]
    simp [ho]
  · dsimp only at h
    split_ifs at h
    have hd : 0 < entryDivisor i entry := by
      unfold entryDivisor
      split_ifs <;> omega
    have hsc : 0 < d / entryDivisor i entry :=
      Nat.div_pos (Nat.le_of_dvd (Nat.pos_of_ne_zero hp) (hdi hm)) hd
    obtain ⟨hle, hg⟩ := mapM_ok h
    have hz : (i.domain.zip w).length = i.domain.length := by
      rw [length_zip, hw.length, min_self]
    refine ⟨hle.trans hz, fun index hin => ?_⟩
    have he : index < extended.length := by omega
    have hwe : index < w.length := by rw [hw.length]; exact hin
    have hs := hg index (by omega) he
    rw [getElem_zip] at hs
    rw [hl index hin, getD_eq_getElem _ _ he, getD_eq_getElem _ _ hwe]
    exact scaled_weight hs (by
      rw [Nat.mul_ne_zero_iff]
      exact and_iff_left hsc.ne')

theorem addEntries_spec {later : List Entry} {extended : List ℕ}
    (h : later.foldlM (addEntry i d) w = .ok extended) (hw : Weighs i e w) (hp : d ≠ 0)
    (hd : ∀ entry ∈ later, entryMatches i entry ≠ 0 → entryDivisor i entry ∣ d) :
    Weighs i (e ++ later) extended := by
  induction later generalizing e w with
  | nil =>
    cases h
    rwa [append_nil]
  | cons entry later ih =>
    obtain ⟨next, hn, h⟩ := foldlM_cons_ok.mp h
    have hs := addEntry_spec hn hw hp (hd entry (by simp))
    have := ih h hs fun o ho => hd o (by simp [ho])
    rwa [append_assoc] at this

theorem distributionWeights_spec (h : distributionWeights i e = .ok w) : Weighs i e w := by
  obtain ⟨d, hd, h⟩ := bind_ok.mp h
  obtain ⟨_, hp, hdi⟩ := denominator_spec hd (by decide)
  have hs : Weighs i [] (replicate i.domain.length 0) := by
    refine ⟨length_replicate, fun index hin => ?_⟩
    simp
  exact addEntries_spec h hs hp hdi

end Weights

section Solvers

/-- What every registered solver keeps. -/
structure WellFormed (solver : Solver) : Prop where
  widths : ∀ item ∈ solver.vars, ∀ value ∈ item.domain, value.length = item.profile.width
  counted : solver.domainValues = (solver.vars.map (·.domain.length)).sum
  budget : solver.domainValues ≤ solver.limits.maximumDomainValues
  clauses : ∀ clause ∈ solver.clauses, ∀ id ∈ clause.vars, id < solver.vars.length
  pairs : ∀ pair ∈ solver.solveBefore, pair.2 < solver.vars.length
  weighs : ∀ distribution ∈ solver.distributions, ∃ item,
    solver.vars[distribution.variableId]? = some item ∧
    Weighs item distribution.entries distribution.weights

variable {s s' : Solver} {l : Limits} {i : Variable} {id : ℕ}

theorem WellFormed.addVariable (h : WellFormed s)
    (ha : addVariable s i = .ok s') : WellFormed s' := by
  unfold Constraint.addVariable at ha
  split_ifs at ha with hva hit hdu hwi hn hb
  cases ha
  have hl : s.vars.length ≤ (s.vars ++ [i]).length := by simp
  refine ⟨fun o ho value hv => ?_, ?_, ?_, fun c hc id hid => ?_, fun p hp => ?_,
    fun d hd => ?_⟩
  · rcases mem_append.mp ho with ho | ho
    · exact h.widths o ho value hv
    · rw [mem_singleton.mp ho] at hv ⊢
      by_contra hne
      exact hwi ⟨value, hv, hne⟩
  · simp [h.counted]
  · have := h.budget
    show s.domainValues + i.domain.length ≤ s.limits.maximumDomainValues
    omega
  · exact (h.clauses c hc id hid).trans_le hl
  · exact (h.pairs p hp).trans_le hl
  · obtain ⟨retained, hr, hw⟩ := h.weighs d hd
    exact ⟨retained, by rw [List.getElem?_append_left
      (List.getElem?_eq_some_iff.mp hr).1]; exact hr, hw⟩

theorem sum_set_add {d : List ℕ} (hid : id < d.length) (value : ℕ) :
    (d.set id value).sum + d[id] = d.sum + value := by
  induction d generalizing id with
  | nil => simp at hid
  | cons first r ih =>
    cases id with
    | zero => simp; omega
    | succ id =>
      have := ih (by simpa using hid)
      simp only [set_cons_succ, sum_cons, getElem_cons_succ]
      omega

theorem WellFormed.replaceDomain {domain : List Value} (h : WellFormed s)
    (hr : replaceDomain s id domain = .ok s') : WellFormed s' := by
  unfold Constraint.replaceDomain at hr
  split at hr
  · cases hr
  · next retained hre =>
    split_ifs at hr with he hu hwi hb
    cases hr
    obtain ⟨hid, hg⟩ := List.getElem?_eq_some_iff.mp hre
    have hl : id < (s.vars.map (·.domain.length)).length := by simpa using hid
    have hs := sum_set_add hl domain.length
    have hp := sum_set_add hl 0
    simp only [getElem_map, hg] at hs hp
    have hco := h.counted
    have hbe := h.budget
    refine ⟨fun o ho value hv => ?_, ?_, ?_, fun c hc o ho => ?_, fun p hpa => ?_,
      fun d hd => ?_⟩
    · rcases mem_or_eq_of_mem_set ho with ho | rfl
      · exact h.widths o ho value hv
      · by_contra hn
        exact hwi (.inl ⟨value, hv, hn⟩)
    · simp only [map_set]
      omega
    · show s.domainValues - retained.domain.length + domain.length ≤ s.limits.maximumDomainValues
      omega
    · simpa using h.clauses c hc o ho
    · simpa using h.pairs p hpa
    · obtain ⟨i, hit, hw⟩ := h.weighs d hd
      refine ⟨i, ?_, hw⟩
      rw [getElem?_set_ne fun heq => hu ⟨d, hd, heq.symm⟩]
      exact hit

theorem WellFormed.addDistribution {d : Distribution} (h : WellFormed s)
    (ha : addDistribution s d = .ok s') : WellFormed s' := by
  unfold Constraint.addDistribution at ha
  split at ha
  · cases ha
  · next i hit =>
    split_ifs at ha
    obtain ⟨w, hw, ha⟩ := bind_ok.mp ha
    cases ha
    refine { h with weighs := fun o ho => ?_ }
    rcases mem_append.mp ho with ho | ho
    · exact h.weighs o ho
    · rw [mem_singleton.mp ho]
      exact ⟨i, hit, distributionWeights_spec hw⟩

theorem Registered.wellFormed (h : Registered l s) : WellFormed s := by
  induction h with
  | empty => exact ⟨by simp [Solver.empty], rfl,
      Nat.zero_le _, by simp [Solver.empty], by simp [Solver.empty], by simp [Solver.empty]⟩
  | addVariable _ ha ih => exact ih.addVariable ha
  | replaceDomain _ hr ih => exact ih.replaceDomain hr
  | addClause _ ha ih =>
    unfold Constraint.addClause at ha
    split_ifs at ha with hb hide hd hu hre
    cases ha
    refine { ih with clauses := fun c hc id hid => ?_ }
    rcases mem_append.mp hc with hc | hc
    · exact ih.clauses c hc id hid
    · rw [mem_singleton.mp hc] at hid
      by_contra hn
      exact hu ⟨id, hid, not_lt.mp hn⟩
  | discardSoftClauses ids _ ih =>
    exact { ih with clauses := fun c hc => ih.clauses c (mem_of_mem_filter hc) }
  | addDistribution _ ha ih => exact ih.addDistribution ha
  | addSolveBefore _ ha ih =>
    unfold Constraint.addSolveBefore at ha
    split at ha
    · next i o _ hl =>
      split_ifs at ha
      · cases ha
        exact ih
      · cases ha
        refine { ih with pairs := fun p hp => ?_ }
        rcases mem_append.mp hp with hp | hp
        · exact ih.pairs p hp
        · rw [mem_singleton.mp hp]
          exact (List.getElem?_eq_some_iff.mp hl).1
    · cases ha

theorem WellFormed.domain_lt (h : WellFormed s)
    (hit : s.vars[id]? = some i) : i.domain.length < 2 ^ 64 := by
  obtain ⟨hid, hg⟩ := List.getElem?_eq_some_iff.mp hit
  have hl : id < (s.vars.map (·.domain.length)).length := by simpa using hid
  have hp := sum_set_add hl 0
  simp only [getElem_map, hg] at hp
  have := h.counted
  have := h.budget
  have := s.limits.maximumDomainValues_lt
  omega

end Solvers

end FsimRuntime.Constraint

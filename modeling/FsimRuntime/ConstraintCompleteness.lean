import FsimRuntime.ConstraintRuns

/-!
# What a failed solve excludes

A choice of domain values that meets the enforced clauses stays ahead of the
search until it is found, unless forward checking cuts it off with candidates
that were drawn while another guard held.
-/

namespace FsimRuntime.Constraint
open List Function

open Simir (Value)

variable {solver : Solver} {evaluator : Evaluator} {choice : ℕ → ℕ} {l l' : Lists} {id : ℕ}
  {limits : Limits}

def chosen (solver : Solver) (choice : ℕ → ℕ) : Assignment := fun id =>
  if id < solver.vars.length then some ((domainOf solver id).getD (choice id) []) else none

/-- Every chosen value has a weight under the distributions whose guards hold for the choice. -/
structure Viable (solver : Solver) (evaluator : Evaluator) (choice : ℕ → ℕ) : Prop where
  inDomain : ∀ id < solver.vars.length, choice id < (domainOf solver id).length
  weighted : ∀ id < solver.vars.length,
    ((weighing solver evaluator (chosen solver choice) id true).map
      (·.weights.getD (choice id) 0)).prod ≠ 0

def Extends (assignment extended : Assignment) : Prop :=
  ∀ id value, assignment id = some value → extended id = some value

/-- Clauses report a violation only when no choice that completes the assignment satisfies them. -/
def Honest (solver : Solver) : Prop :=
  ∀ clause ∈ solver.clauses, ∀ assignment choice,
    (∀ id < solver.vars.length, choice id < (domainOf solver id).length) →
    Extends assignment (chosen solver choice) → clause.evaluate assignment = .violated →
    clause.evaluate (chosen solver choice) ≠ .satisfied

/-- Guards leave every value that the unguarded distributions allow. -/
def Reweighted (solver : Solver) (id : ℕ) : Prop :=
  ∀ index < (domainOf solver id).length,
    (∀ distribution ∈ solver.distributions, distribution.variableId = id →
      distribution.guard = none → distribution.weights.getD index 0 ≠ 0) →
    ∀ distribution ∈ solver.distributions, distribution.variableId = id →
    distribution.weights.getD index 0 ≠ 0

/-- Guards exclude no value of a variable that shares a clause with another one. -/
def GuardsReweight (solver : Solver) : Prop :=
  ∀ id, guardedVariable solver id = true → Reweighted solver id ∨
    ∀ clause ∈ solver.clauses, id ∈ clause.vars → ∀ other ∈ clause.vars, other = id

def Meets (solver : Solver) (enforced : ℕ → Bool) (choice : ℕ → ℕ) : Prop :=
  ∀ clause ∈ enforcedClauses solver enforced,
    clause.evaluate (chosen solver choice) = .satisfied

theorem chosen_of_lt (hid : id < solver.vars.length) :
    chosen solver choice id = some ((domainOf solver id).getD (choice id) []) := if_pos hid

/-- A guard that held for an assignment of a search gives the chosen value no weight. -/
def Stale (context : SearchContext) (choice : ℕ → ℕ) (id : ℕ) : Prop :=
  ∃ enforced state, Reached context enforced state ∧
    ∃ distribution ∈ context.solver.distributions, distribution.variableId = id ∧
      distribution.guard ≠ none ∧
      guardHolds context.evaluator state.assignment distribution = true ∧
      distribution.weights.getD (choice id) 0 = 0

/-- At an assignment that the choice completes, forward checking rejects a clause for the candidates
of its open variable, from which a guard that held before has left out the chosen value. -/
def CutOff (context : SearchContext) (choice : ℕ → ℕ) : Prop :=
  ∃ enforced assignment lists, Checked context enforced assignment lists ∧
    Extends assignment (chosen context.solver choice) ∧
    ∃ clause ∈ enforcedClauses context.solver enforced, ∃ unit,
      openVariables clause assignment = [unit] ∧ (∃ other ∈ clause.vars, other ≠ unit) ∧
      Stale context choice unit ∧ choice unit ∉ lists.candidates unit ∧
      ∀ index ∈ lists.candidates unit, clause.evaluate
        (update assignment unit (some (valueAt context.solver lists unit index))) = .violated

variable {assignment : Assignment} {d : RetainedDistribution} {extended : Assignment}

theorem Extends.update {value : Value} (h : Extends assignment extended)
    (hv : extended id = some value) : Extends (update assignment id (some value)) extended := by
  intro o found hf
  by_cases ho : o = id
  · subst ho
    rwa [update_self, ← hv] at hf
  · rw [update_of_ne ho] at hf
    exact h o found hf

theorem extends_unassigned (assignment : Assignment) : Extends unassigned assignment :=
  fun _ _ hv => nomatch hv

theorem guardHolds_extends (h : Extends assignment extended)
    (hh : guardHolds evaluator assignment d = true) : guardHolds evaluator extended d = true := by
  unfold guardHolds at hh ⊢
  split
  · rfl
  · next g hg =>
    rw [hg] at hh
    simp only [Bool.and_eq_true, all_eq_true] at hh ⊢
    have hs (id : ℕ) (hid : id ∈ readVariables g) : extended id = assignment id := by
      obtain ⟨value, hv⟩ := Option.isSome_iff_exists.mp (hh.1 id hid)
      rw [hv, h id value hv]
    exact ⟨fun id hid => by rw [hs id hid]; exact hh.1 id hid,
      by rw [evaluator.expression_congr g _ _ hs]; exact hh.2⟩

section
variable (h : Viable solver evaluator choice) (hid : id < solver.vars.length)
include h hid

theorem Viable.weight_ne_zero
    (hm : d ∈ weighing solver evaluator (chosen solver choice) id true) :
    d.weights.getD (choice id) 0 ≠ 0 := by
  intro hz
  refine h.weighted id hid (prod_eq_zero ?_)
  exact mem_map.mpr ⟨d, hm, hz⟩

theorem Viable.unguarded (hm : d ∈ solver.distributions)
    (hv : d.variableId = id) (hg : d.guard = none) : d.weights.getD (choice id) 0 ≠ 0 :=
  h.weight_ne_zero hid (mem_weighing.mpr ⟨hm, hv, .inl hg⟩)

end

/-- The candidates keep the chosen value, unless a guard has left it out. -/
def Keeps (context : SearchContext) (choice : ℕ → ℕ) (lists : Lists) : Prop :=
  ∀ id < context.solver.vars.length, choice id ∈ lists.candidates id ∨ Stale context choice id

theorem Keeps.solves {c : SearchContext} {clauses : List Clause} (h : Keeps c choice l)
    (hs : Solves c.solver c.evaluator assignment clauses l l') : Keeps c choice l' :=
  fun id hid => (h id hid).imp_left fun hm => hs.candidates_subset id hm

theorem mem_initialCandidates_choice (hw : WellFormed solver) (hh : Honest solver)
    (hv : Viable solver evaluator choice) (hme : Meets solver (hardClauses solver) choice)
    {s : BitVec 64}
    {candidates : ℕ → List ℕ} (h : initialCandidates solver evaluator s = .ok candidates)
    (hid : id < solver.vars.length) : choice id ∈ candidates id := by
  refine (mem_initialCandidates hw h hid).mpr ⟨⟨hv.inDomain id hid, fun d hm => ?_⟩, ?_⟩
  · obtain ⟨hm, hva, hg | ⟨hf, _⟩⟩ := mem_weighing.mp hm
    · exact hv.unguarded hid hm hva hg
    · cases hf
  · intro clause hc hu hvi
    refine hh clause hc _ choice hv.inDomain
      ((extends_unassigned _).update (chosen_of_lt hid)) hvi (hme clause ?_)
    obtain ⟨index, hin⟩ := getElem?_of_mem hc
    refine mem_enforcedClauses.mpr ⟨index, hin, enforcesHard_hardClauses index clause hin ?_⟩
    unfold unaryVariable at hu
    split at hu
    · split_ifs at hu with hha
      simpa using (Bool.and_eq_true_iff.mp hha).1
    · cases hu

section Rounds

variable {c : SearchContext} {e : ℕ → Bool} {state next : SearchState} {index : ℕ}
  {violated : Bool}

def Allows (context : SearchContext) (choice : ℕ → ℕ) : Prop :=
  ∀ id < context.solver.vars.length, choice id ∈ context.allowed id

/-- A viable choice among the values that a search may look at. -/
structure Guides (context : SearchContext) (choice : ℕ → ℕ) : Prop where
  wellFormed : WellFormed context.solver
  ordered : context.Ordered
  allows : Allows context choice
  viable : Viable context.solver context.evaluator choice

theorem rebuild_of_ne {o : ℕ} (h : rebuild c state id = .ok l) (ho : o ≠ id) :
    l.candidates o = state.lists.candidates o := by
  unfold rebuild at h
  split_ifs at h
  · obtain ⟨order, _, h⟩ := bind_ok.mp h
    cases h
    exact update_of_ne ho _ _
  · cases h
    rfl

theorem rebuild_unguarded (h : rebuild c state id = .ok l)
    (hk : guardedVariable c.solver id = false ∨ state.nextIndex state.depth ≠ 0) :
    l = state.lists := by
  unfold rebuild at h
  rw [if_neg] at h
  · cases h
    rfl
  · rintro ⟨hz, hg⟩
    rcases hk with hk | hk
    · simp [hg] at hk
    · exact hk hz

variable (g : Guides c choice)

section
include g

theorem mem_rebuild (hid : id < c.solver.vars.length) (h : rebuild c state id = .ok l)
    (hg : guardedVariable c.solver id = true) (hn : state.nextIndex state.depth = 0)
    (hw : ∀ d ∈ weighing c.solver c.evaluator state.assignment id true,
      d.weights.getD (choice id) 0 ≠ 0) : choice id ∈ l.candidates id := by
  unfold rebuild at h
  rw [if_pos ⟨hn, hg⟩] at h
  obtain ⟨o, ho, h⟩ := bind_ok.mp h
  cases h
  simp only [update_self, mem_filter, contains_iff_mem]
  exact ⟨(mem_valueOrder g.wellFormed (mapError_ok.mp ho)).mpr ⟨g.viable.inDomain id hid, hw⟩,
    g.allows id hid⟩

theorem Keeps.rebuild (hre : Reached c e state) (h : Keeps c choice state.lists)
    (hr : rebuild c state id = .ok l) : Keeps c choice l := by
  intro o ho
  by_cases he : o = id
  · subst he
    by_cases hz : state.nextIndex state.depth = 0 ∧ guardedVariable c.solver o = true
    · by_cases hw : ∀ d ∈ weighing c.solver c.evaluator state.assignment o true,
          d.weights.getD (choice o) 0 ≠ 0
      · exact .inl (mem_rebuild g ho hr hz.2 hz.1 hw)
      · push Not at hw
        obtain ⟨d, hd, hzero⟩ := hw
        obtain ⟨hm, hva, hg⟩ := mem_weighing.mp hd
        have hsome : d.guard ≠ none := fun hn => g.viable.unguarded ho hm hva hn hzero
        exact .inr ⟨e, state, hre, d, hm, hva, hsome, (hg.resolve_left hsome).2, hzero⟩
    · have hl : l = state.lists := by
        refine rebuild_unguarded hr ?_
        by_cases hn : state.nextIndex state.depth = 0
        · exact .inl (by simpa using fun hgu => hz ⟨hn, hgu⟩)
        · exact .inr hn
      rw [hl]
      exact h o ho
  · rw [rebuild_of_ne hr he]
    exact h o ho

theorem Round.keeps {ended : Option Outcome} (hre : Reached c e state)
    (h : Keeps c choice state.lists) (hro : Round c e state ended next) :
    Keeps c choice next.lists := by
  obtain ⟨reduced, assignment, hr | hr, hs⟩ := hro.solves
  · exact (hr ▸ h : Keeps c choice reduced).solves hs
  · exact (h.rebuild g hre hr).solves hs

end

def Agrees (context : SearchContext) (choice : ℕ → ℕ) (assignment : Assignment)
    (depth : ℕ) : Prop :=
  ∀ k < depth,
    assignment (context.variableAt k) = chosen context.solver choice (context.variableAt k)

variable {assignment : Assignment}

theorem Agrees.extends {depth : ℕ} (ho : c.Ordered) (h : Agrees c choice assignment depth)
    (hl : ∀ k < c.solver.vars.length, depth ≤ k → assignment (c.variableAt k) = none)
    (hou : ∀ id, c.solver.vars.length ≤ id → assignment id = none) :
    Extends assignment (chosen c.solver choice) := by
  intro id value hv
  by_cases hid : id < c.solver.vars.length
  · obtain ⟨k, hk, rfl⟩ := ho.exists_variableAt hid
    by_cases hd : k < depth
    · rw [← h k hd, hv]
    · simp [hl k hk (not_lt.mp hd)] at hv
  · simp [hou id (not_lt.mp hid)] at hv

structure Ahead (context : SearchContext) (choice : ℕ → ℕ) (state : SearchState)
    (parting : ℕ) : Prop where
  le_depth : parting ≤ state.depth
  agrees : Agrees context choice state.assignment parting
  untried : choice (context.variableAt parting) ∈
      (state.lists.candidates (context.variableAt parting)).drop (state.nextIndex parting) ∨
    parting = state.depth ∧ state.nextIndex parting = 0

structure Expects (context : SearchContext) (enforced : ℕ → Bool) (choice : ℕ → ℕ)
    (state : SearchState) : Prop where
  reached : Reached context enforced state
  placed : Placed context state
  keeps : Keeps context choice state.lists
  ahead : ∃ parting, Ahead context choice state parting

theorem Stale.guarded (h : Stale c choice id) : guardedVariable c.solver id = true := by
  obtain ⟨_, _, _, d, hm, hva, hg, _⟩ := h
  exact any_eq_true.mpr ⟨d, hm, by simp [hva, Option.isSome_iff_ne_none.mpr hg]⟩

/-- Guards that exclude no value of a variable that shares a clause cut off no choice. -/
theorem GuardsReweight.not_cutOff (hg : GuardsReweight c.solver) (g : Guides c choice) :
    ¬ CutOff c choice := by
  rintro ⟨_, _, _, _, _, clause, hcl, unit, ho, ⟨other, hot, hne⟩, hst, _⟩
  have hme := enforcedClauses_subset hcl
  have hu := (mem_openVariables.mp (ho ▸ mem_singleton_self unit)).1
  have hl := g.wellFormed.clauses clause hme unit hu
  rcases hg unit hst.guarded with hr | hsi
  · obtain ⟨_, _, _, d, hm, hva, _, _, hz⟩ := hst
    exact hr (choice unit) (g.viable.inDomain unit hl)
      (fun _ hd hv hn => g.viable.unguarded hl hd hv hn) d hm hva hz
  · exact hne (hsi clause hme hu other hot)

section
include g

theorem untried_rebuilt (hs : Expects c e choice state) (h : Ahead c choice state state.depth)
    (hr : rebuild c state (c.variableAt state.depth) = .ok l) :
    choice (c.variableAt state.depth) ∈
      (l.candidates (c.variableAt state.depth)).drop (state.nextIndex state.depth) := by
  have hid := g.ordered.variableAt_lt hs.placed.depth_lt
  by_cases hz : state.nextIndex state.depth = 0
  · rw [hz]
    by_cases hg : guardedVariable c.solver (c.variableAt state.depth) = true
    · -- the guards that hold for the search hold for the choice, which agrees with it so far
      have he : Extends state.assignment (chosen c.solver choice) := by
        refine h.agrees.extends g.ordered (fun k hk hl => ?_) hs.placed.outside
        rcases hl.lt_or_eq with hlt | rfl
        · exact hs.placed.later k hk hlt
        · exact hs.placed.current hz
      refine mem_rebuild g hid hr hg hz fun d hm => ?_
      obtain ⟨hm, hva, hgu⟩ := mem_weighing.mp hm
      exact g.viable.weight_ne_zero hid (mem_weighing.mpr
        ⟨hm, hva, hgu.imp_right fun ⟨_, hh⟩ => ⟨rfl, guardHolds_extends he hh⟩⟩)
    · rw [rebuild_unguarded hr (.inl (by simpa using hg))]
      refine (hs.keeps _ hid).resolve_right fun hst => hg hst.guarded
  · rw [rebuild_unguarded hr (.inr hz)]
    exact h.untried.resolve_right fun ⟨_, h⟩ => hz h

theorem Dry.parting_lt (hs : Expects c e choice state) (hd : Dry c state l) {p : ℕ}
    (h : Ahead c choice state p) : p < state.depth := by
  refine lt_of_le_of_ne h.le_depth fun he => ?_
  subst he
  have hm := untried_rebuilt g hs h hd.rebuilt
  rw [drop_eq_nil_of_le hd.length] at hm
  cases hm

theorem Attempt.not_conflict (hh : Honest c.solver) (hcut : ¬ CutOff c choice)
    (hm : Meets c.solver e choice) (hs : Expects c e choice state)
    (h : Attempt c e state l index violated next)
    (he : Extends next.assignment (chosen c.solver choice)) :
    ¬ Conflict c.solver c.evaluator next.assignment
      (affected c.solver e (c.variableAt state.depth)) l := by
  have hd := g.viable.inDomain
  rintro ⟨clause, hc, hv | ⟨l', hso, unit, ho, hre⟩⟩
  · exact hh clause (affected_subset clause hc) _ choice hd he hv
      (hm clause (mem_of_mem_filter hc))
  · have hme := affected_subset clause hc
    obtain ⟨hu, hn⟩ := mem_openVariables.mp (ho ▸ mem_singleton_self unit)
    have hl := g.wellFormed.clauses clause hme unit hu
    have hk := (hs.keeps.rebuild g hs.reached h.rebuilt).solves hso
    by_cases hin : choice unit ∈ l'.candidates unit
    · have hv := hre (choice unit) hin
      rw [valueAt, if_pos (hd unit hl)] at hv
      exact hh clause hme _ choice hd (he.update (chosen_of_lt hl)) hv
        (hm clause (mem_of_mem_filter hc))
    · have hst := (hk unit hl).resolve_left hin
      obtain ⟨hcan, hsy⟩ := hso.guarded hst.guarded
      -- the clause was checked for the variable just assigned
      have hr : clause.vars.isEmpty = true ∨ c.variableAt state.depth ∈ clause.vars := by
        simpa [affected] using (mem_filter.mp hc).2
      have hother : c.variableAt state.depth ∈ clause.vars := by
        refine hr.resolve_left fun hem => ?_
        rw [isEmpty_iff.mp hem] at hu
        cases hu
      refine hcut ⟨e, _, l, ⟨state, index, violated, next, hs.reached, h, rfl⟩, he, clause,
        mem_of_mem_filter hc, unit, ho, ⟨_, hother, ?_⟩, hst, hcan ▸ hin, fun i hi => ?_⟩
      · rintro rfl
        simp [h.assigned] at hn
      · have hv := hre i (hcan ▸ hi)
        rwa [valueAt, hsy] at hv

theorem Attempt.ahead (hs : Expects c e choice state)
    (h : Attempt c e state l index violated next) :
    Agrees c choice next.assignment (state.depth + 1) ∨
      ∃ p ≤ state.depth, Agrees c choice next.assignment p ∧ choice (c.variableAt p) ∈
        (next.lists.candidates (c.variableAt p)).drop (next.nextIndex p) := by
  have hd := hs.placed.depth_lt
  have ho := g.ordered
  obtain ⟨p, ha⟩ := hs.ahead
  have hag : Agrees c choice next.assignment p := by
    intro k hk
    have := ha.le_depth
    rw [h.assignment_of_ne ho hs.placed (by omega) (by omega)]
    exact ha.agrees k hk
  rcases ha.le_depth.lt_or_eq with hl | rfl
  · refine .inr ⟨p, ha.le_depth, hag, ?_⟩
    have hn : c.variableAt p ≠ c.variableAt state.depth := fun he =>
      hl.ne (ho.variableAt_inj (by omega) hd he)
    have hass : next.assignment (c.variableAt p) ≠ none := by
      rw [h.assignment_of_ne ho hs.placed (by omega) hl.ne]
      exact hs.placed.earlier p hl
    rw [(h.solves.assigned hass).1, rebuild_of_ne h.rebuilt hn, h.nextIndex, update_of_ne hl.ne]
    exact ha.untried.resolve_right fun ⟨he, _⟩ => hl.ne he
  · have hass : next.assignment (c.variableAt state.depth) ≠ none := by
      rw [h.assigned]
      exact Option.some_ne_none _
    have hu := untried_rebuilt g hs ha h.rebuilt
    obtain ⟨hl, hg⟩ := List.getElem?_eq_some_iff.mp h.candidate
    rw [drop_eq_getElem_cons hl, hg, mem_cons] at hu
    rcases hu with hc | hla
    · refine .inl fun k hk => ?_
      rcases Nat.lt_succ_iff_lt_or_eq.mp hk with hk | rfl
      · exact hag k hk
      · have hid := ho.variableAt_lt hd
        rw [h.assigned, chosen_of_lt hid, ← hc, valueAt, if_pos (g.viable.inDomain _ hid)]
    · refine .inr ⟨state.depth, le_rfl, hag, ?_⟩
      rwa [(h.solves.assigned hass).1, h.nextIndex, update_self]

end

theorem Attempt.extends_of_agrees (ho : c.Ordered) (hp : Placed c state)
    (h : Attempt c e state l index violated next)
    (ha : Agrees c choice next.assignment (state.depth + 1)) :
    Extends next.assignment (chosen c.solver choice) := by
  have hn := h.placed ho hp
  exact ha.extends ho (fun k hk hl => hn.later k hk (by rw [h.depth]; omega)) hn.outside

include g in
theorem Expects.step (hh : Honest c.solver) (hcut : ¬ CutOff c choice)
    (hm : Meets c.solver e choice) (hs : Expects c e choice state)
    (hst : searchStep c e state = .ok (none, next)) : Expects c e choice next := by
  have ho := g.ordered
  have h := searchStep_round hst
  refine ⟨hs.reached.round hst, hs.placed.round ho h, h.keeps g hs.reached hs.keeps, ?_⟩
  have hd := hs.placed.depth_lt
  cases h with
  | back hdr hb hass hn =>
    obtain ⟨p, hah⟩ := hs.ahead
    have hlt := hdr.parting_lt g hs hah
    have hne (k : ℕ) (hk : k < state.depth) : c.variableAt k ≠ c.variableAt state.depth :=
      fun he =>
      hk.ne (ho.variableAt_inj (by omega) hd he)
    refine ⟨p, by omega, fun k hk => ?_, .inl ?_⟩
    · rw [hass, update_of_ne (hne k (by omega))]
      exact hah.agrees k hk
    · rw [rebuild_of_ne hdr.rebuilt (hne p hlt), hn, update_of_ne hlt.ne]
      exact hah.untried.resolve_right fun ⟨he, _⟩ => hlt.ne he
  | conflict ha =>
    rcases ha.ahead g hs with hag | ⟨p, hl, hag, hu⟩
    · refine absurd ((@violatedAfter_spec _ _ _ _ _ _).2 (congrArg Prod.fst ha.checked)) ?_
      exact ha.not_conflict g hh hcut hm hs (ha.extends_of_agrees ho hs.placed hag)
    · exact ⟨p, by rw [ha.depth]; exact hl, hag, .inl hu⟩
  | deeper ha hlt =>
    rcases ha.ahead g hs with hag | ⟨p, hl, hag, hu⟩
    · have hf := (ha.placed ho hs.placed).fresh (state.depth + 1) (by rw [ha.depth]; omega)
      exact ⟨state.depth + 1, le_rfl, hag, .inr ⟨rfl, hf⟩⟩
    · exact ⟨p, Nat.le_succ_of_le hl, hag, .inl hu⟩
  | rejected ha hc hvi =>
    rcases ha.ahead g hs with hag | ⟨p, hl, hag, hu⟩
    · exact absurd (hm _ hc) (hh _ (enforcedClauses_subset hc) _ choice g.viable.inDomain
        (ha.extends_of_agrees ho hs.placed hag) hvi)
    · exact ⟨p, by rw [ha.depth]; exact hl, hag, .inl hu⟩

end Rounds

section Searches

variable {c : SearchContext} {e : ℕ → Bool} {next : SearchState} {f steps r : ℕ}

theorem search_keeps {o : Outcome} (g : Guides c choice)
    (hre : Reached c e ⟨unassigned, fun _ => 0, 0, l, steps, r⟩) (hk : Keeps c choice l)
    (h : search c e f l steps r = .ok (o, next)) : Keeps c choice next.lists := by
  have hr (state after : SearchState) (hs : Reached c e state ∧ Keeps c choice state.lists)
      (hn : searchStep c e state = .ok (none, after)) : Reached c e after ∧
        Keeps c choice after.lists :=
    ⟨hs.1.round hn, (searchStep_round hn).keeps g hs.1 hs.2⟩
  obtain ⟨last, hl, hr⟩ := searchLoop_invariant hr ⟨hre, hk⟩ h
  exact (searchStep_round hr).keeps g hl.1 hl.2

theorem search_unsatisfiable (g : Guides c choice) (hva : c.solver.vars ≠ [])
    (hh : Honest c.solver)
    (hcut : ¬ CutOff c choice) (hre : Reached c e ⟨unassigned, fun _ => 0, 0, l, steps, r⟩)
    (hke : Keeps c choice l) (h : search c e f l steps r = .ok (.unsatisfiable, next)) :
    ¬ Meets c.solver e choice := by
  intro hm
  have hs : Expects c e choice ⟨unassigned, fun _ => 0, 0, l, steps, r⟩ :=
    ⟨hre, placed_start l steps r (length_pos_iff.mpr hva), hke,
      0, le_rfl, fun k hk => absurd hk (Nat.not_lt_zero k), .inr ⟨rfl, rfl⟩⟩
  obtain ⟨last, hl, hr⟩ := searchLoop_invariant (fun _ _ hst => hst.step g hh hcut hm) hs h
  cases searchStep_round hr with
  | unsatisfiable hd hde =>
    obtain ⟨p, hah⟩ := hl.ahead
    have := hd.parting_lt g hl hah
    omega

end Searches

section Soft

variable {c : SearchContext} {e : ℕ → Bool} {count index f : ℕ} {b : Assignment}
  {state : SearchState} {result : SolveResult}

/-- A choice satisfies a soft clause that the answer does not, with the later soft clauses that the
answer does. -/
def Improves (solver : Solver) (best : Assignment) (choice : ℕ → ℕ) : Prop :=
  ∃ (index : ℕ) (clause : Clause), solver.clauses[index]? = some clause ∧
    clause.soft = true ∧ clause.evaluate best ≠ .satisfied ∧
    (∀ (later : ℕ) (other : Clause), index < later → solver.clauses[later]? = some other →
      other.soft = true → other.evaluate best = .satisfied →
      other.evaluate (chosen solver choice) = .satisfied) ∧
    clause.evaluate (chosen solver choice) = .satisfied

/-- A viable choice satisfies all hard clauses though the solve has failed, or improves on its
answer. -/
structure Missed (solver : Solver) (evaluator : Evaluator) (result : SolveResult)
    (choice : ℕ → ℕ) : Prop where
  viable : Viable solver evaluator choice
  hard : ∀ clause ∈ solver.clauses, clause.soft = false →
    clause.evaluate (chosen solver choice) = .satisfied
  ended : result.status = .unsatisfiable ∨
    result.status = .satisfied ∧ Improves solver (answer result.values) choice

/-- A clause with the hard clauses and the enforced clauses behind it. -/
def joinedAt (solver : Solver) (enforced : ℕ → Bool) (index : ℕ) (position : ℕ) : Bool :=
  hardClauses solver position || (index < position && enforced position) || position = index

theorem joinedAt_update {later : ℕ} (h : index < later) :
    joinedAt solver (update e index true) later = joinedAt solver e later := by
  funext position
  unfold joinedAt
  by_cases hp : position = index
  · have : ¬ later < position := by omega
    simp [this]
  · rw [update_of_ne hp]

theorem Meets.mono {fewer : ℕ → Bool} (h : Meets solver e choice)
    (hs : ∀ p, fewer p = true → e p = true) : Meets solver fewer choice := by
  intro clause hc
  obtain ⟨p, hp, hf⟩ := mem_enforcedClauses.mp hc
  exact h clause (mem_enforcedClauses.mpr ⟨p, hp, hs p hf⟩)

structure Progress (context : SearchContext) (enforced : ℕ → Bool) (count : ℕ)
    (best : Assignment) (lists : Lists) : Prop where
  hard : ∀ position, hardClauses context.solver position = true → enforced position = true
  tried : ∀ position, enforced position = true → hardClauses context.solver position = true ∨
    count ≤ position
  total : Total context.solver best
  satisfied : ∀ clause ∈ enforcedClauses context.solver enforced,
    clause.evaluate best = .satisfied
  keeps : ∀ choice, Viable context.solver context.evaluator choice →
    Meets context.solver (hardClauses context.solver) choice → Keeps context choice lists
  excluded : ∀ position clause, count ≤ position → context.solver.clauses[position]? =
    some clause → clause.soft = true → enforced position = false →
    ∀ choice, Viable context.solver context.evaluator choice → ¬ CutOff context choice →
    ¬ Meets context.solver (joinedAt context.solver enforced position) choice

theorem Progress.leave (h : Progress c e (index + 1) b l)
    (hk : ∀ choice, Viable c.solver c.evaluator choice →
      Meets c.solver (hardClauses c.solver) choice → Keeps c choice l')
    (hin : ∀ clause, c.solver.clauses[index]? = some clause → clause.soft = true → ∀ choice,
      Viable c.solver c.evaluator choice → ¬ CutOff c choice →
      ¬ Meets c.solver (joinedAt c.solver e index) choice) :
    Progress c e index b l' := by
  refine ⟨h.hard, fun p hp => ?_, h.total, h.satisfied, hk, fun p clause hl hc => ?_⟩
  · exact (h.tried p hp).imp_right fun hl => by omega
  · rcases hl.lt_or_eq with hlt | rfl
    · exact h.excluded p clause hlt hc
    · exact fun hs _ => hin clause hc hs

theorem Progress.join {better : Assignment} (h : Progress c e (index + 1) b l)
    (ht : Total c.solver better)
    (hs : ∀ clause ∈ enforcedClauses c.solver (update e index true),
      clause.evaluate better = .satisfied) (hk : ∀ choice, Viable c.solver c.evaluator choice →
      Meets c.solver (hardClauses c.solver) choice → Keeps c choice l') :
    Progress c (update e index true) index better l' := by
  refine ⟨fun p hh => ?_, fun p hp => ?_, ht, hs, hk, fun p clause hl hc hso ho => ?_⟩
  · by_cases he : p = index
    · rw [he, update_self]
    · rw [update_of_ne he]
      exact h.hard p hh
  · by_cases he : p = index
    · exact .inr (by omega)
    · rw [update_of_ne he] at hp
      exact (h.tried p hp).imp_right fun hl => by omega
  · rcases hl.lt_or_eq with hlt | rfl
    · rw [update_of_ne (by omega)] at ho
      rw [joinedAt_update hlt]
      exact h.excluded p clause hlt hc hso ho
    · rw [update_self] at ho
      cases ho

theorem Progress.not_missed (h : Progress c e 0 b l) (hcut : ¬ CutOff c choice) {steps : ℕ} :
    ¬ Missed c.solver c.evaluator (finish .found (retainValues c.solver b) steps) choice := by
  rintro ⟨hv, hh, hs | ⟨_, index, clause, hc, hso, hu, hl, hcc⟩⟩
  · cases hs
  simp only [finish, answer_retainValues h.total] at hu hl
  have hou : e index = false := by
    by_contra he
    exact hu (h.satisfied clause (mem_enforcedClauses.mpr ⟨index, hc, by simpa using he⟩))
  refine h.excluded index clause (Nat.zero_le _) hc hso hou choice hv hcut fun o hot => ?_
  obtain ⟨p, hp, hj⟩ := mem_enforcedClauses.mp hot
  by_cases ho : o.soft = true
  · simp only [joinedAt, hardClauses, hp, Option.map_some, Option.getD_some, ho, Bool.not_true,
      Bool.false_or, Bool.or_eq_true, Bool.and_eq_true, decide_eq_true_eq] at hj
    rcases hj with ⟨hlt, he⟩ | rfl
    · exact hl p o hlt hp ho (h.satisfied o (mem_enforcedClauses.mpr ⟨p, hp, he⟩))
    · rw [hc] at hp
      cases hp
      exact hcc
  · exact hh o (mem_of_getElem? hp) (by simpa using ho)

theorem softClauses_spec (hor : c.Ordered) (hva : c.solver.vars ≠ []) (hho : Honest c.solver)
    (ha : ∀ choice, Viable c.solver c.evaluator choice →
      Meets c.solver (hardClauses c.solver) choice → Guides c choice)
    (hen : EnforcesHard c.solver e) (hre : Continues c state.lists state.steps state.readings)
    (hp : Progress c e count b state.lists) (h : softClauses c f count e b state = .ok result)
    (hcut : ¬ CutOff c choice) : ¬ Missed c.solver c.evaluator result choice := by
  induction count generalizing e b state with
  | zero =>
    cases h
    exact hp.not_missed hcut
  | succ index ih =>
    unfold softClauses at h
    split at h
    · next hn => exact ih hen hre (hp.leave hp.keeps fun clause hc => by simp [hn] at hc) h
    · next clause hc =>
      split_ifs at h with hh hsa
      · refine ih hen hre (hp.leave hp.keeps fun o ho hso => ?_) h
        rw [hc] at ho
        cases ho
        simp [hso] at hh
      · refine ih hen.update hre (hp.join hp.total (fun o ho => ?_) hp.keeps) h
        obtain ⟨p, hpo, hj⟩ := mem_enforcedClauses.mp ho
        by_cases he : p = index
        · rw [he, hc] at hpo
          cases hpo
          exact hsa
        · rw [update_of_ne he] at hj
          exact hp.satisfied o (mem_enforcedClauses.mpr ⟨p, hpo, hj⟩)
      · obtain ⟨⟨outcome, next⟩, hs, h⟩ := bind_ok.mp h
        have hst := hre (update e index true) hen.update
        have hk : ∀ choice, Viable c.solver c.evaluator choice →
            Meets c.solver (hardClauses c.solver) choice → Keeps c choice next.lists :=
          fun choice hv hm => search_keeps (ha choice hv hm) hst (hp.keeps choice hv hm) hs
        have hco := search_continues hst hs
        cases outcome with
        | found =>
          obtain ⟨ht, hf⟩ := search_found hor hva hs
          exact ih hen.update hco (hp.join ht hf hk) h
        | unsatisfiable =>
          refine ih hen hco (hp.leave hk fun o _ _ choice hv hcu hm => ?_) h
          have hmh : Meets c.solver (hardClauses c.solver) choice :=
            hm.mono fun p hh => by simp [joinedAt, hh]
          refine search_unsatisfiable (ha choice hv hmh) hva hho hcu hst (hp.keeps choice hv hmh) hs
            (hm.mono fun p hj => ?_)
          by_cases he : p = index
          · simp [joinedAt, he]
          · rw [update_of_ne he] at hj
            rcases hp.tried p hj with hh | hl
            · simp [joinedAt, hh]
            · simp [joinedAt, hj, Nat.lt_of_succ_le hl]
        | exhausted reduced =>
          cases h
          rintro ⟨_, _, hs | ⟨hs, _⟩⟩ <;> cases hs

end Soft

section Solving

variable {result : SolveResult}

/-- A search of the solve cuts the choice off. -/
def CutOffIn (solver : Solver) (evaluator : Evaluator) (expired : ℕ → Bool)
    (selection : BitVec 64) (choice : ℕ → ℕ) : Prop :=
  ∃ context, solveContext solver evaluator expired selection = .ok context ∧
    CutOff context choice

theorem meets_hardClauses
    (h : ∀ clause ∈ solver.clauses, clause.soft = false →
      clause.evaluate (chosen solver choice) = .satisfied) :
    Meets solver (hardClauses solver) choice := by
  intro clause hc
  obtain ⟨index, hin, hh⟩ := mem_enforcedClauses.mp hc
  exact h clause (mem_of_getElem? hin) (by simpa [hardClauses, hin] using hh)

theorem evaluateAll_violated {assignment : Assignment} {clauses : List Clause} {hard : ClauseState}
    {s : List ClauseState} (h : (evaluateAll assignment clauses hard s).1 = .violated) :
    hard = .violated ∨ ∃ clause ∈ clauses, clause.soft = false ∧
    clause.evaluate assignment = .violated := by
  induction clauses generalizing hard s with
  | nil => exact .inl h
  | cons clause clauses ih =>
    unfold evaluateAll at h
    dsimp only at h
    split_ifs at h with hso hv hu
    · exact (ih h).imp_right fun ⟨o, ho, hc⟩ => ⟨o, mem_cons_of_mem _ ho, hc⟩
    · exact .inr ⟨clause, by simp, by simpa using hso, hv⟩
    · rcases ih h with hs | ⟨o, ho, hc⟩
      · rw [hu] at hs
        cases hs
      · exact .inr ⟨o, mem_cons_of_mem _ ho, hc⟩
    · exact (ih h).imp_right fun ⟨o, ho, hc⟩ => ⟨o, mem_cons_of_mem _ ho, hc⟩

theorem solveEmpty_not_missed (hva : solver.vars = []) (h : solveEmpty solver = .ok result) :
    ¬ Missed solver evaluator result choice := by
  have hc : chosen solver choice = unassigned := by
    funext id
    simp [chosen, hva, unassigned]
  unfold solveEmpty at h
  dsimp only at h
  split_ifs at h with hu hsa
  · cases h
    rintro ⟨_, _, hs | ⟨_, _, _, _, _, hun, _, hcc⟩⟩
    · cases hs
    · rw [hc] at hcc
      exact hun hcc
  · cases h
    rintro ⟨_, hall, _⟩
    have hv : (evaluateAll unassigned solver.clauses .satisfied []).1 = .violated := by
      push Not at hu
      cases hst : (evaluateAll unassigned solver.clauses .satisfied []).1 with
      | undetermined => exact absurd hst hu.1
      | satisfied => exact absurd hst hsa
      | violated => rfl
    obtain hsta | ⟨clause, hcl, hh, he⟩ := evaluateAll_violated hv
    · cases hsta
    · have hm := hall clause hcl hh
      rw [hc, he] at hm
      cases hm

variable {expired : ℕ → Bool} {f : ℕ} {selection : BitVec 64}

theorem solve_missed (hw : WellFormed solver) (hh : Honest solver)
    (h : solve solver evaluator expired f selection = .ok result)
    (hm : Missed solver evaluator result choice) :
    ∃ context, solveContext solver evaluator expired selection = .ok context ∧
      Guides context choice ∧ CutOff context choice := by
  have hme := meets_hardClauses hm.hard
  cases solve_ends h with
  | expired => rcases hm.ended with hs | ⟨hs, _⟩ <;> cases hs
  | empty hva h => exact absurd hm (solveEmpty_not_missed hva h)
  | @failed context o _ hva hco hse hf =>
    cases o with
    | found => exact absurd rfl hf
    | exhausted reduced => rcases hm.ended with hs | ⟨hs, _⟩ <;> cases hs
    | unsatisfiable =>
      refine ⟨context, hco, ?_⟩
      obtain ⟨candidates, order, rfl, hc, ho⟩ := solveContext_spec hw hco
      have ha := fun id => @mem_initialCandidates_choice _ _ _ id hw hh hm.viable hme _ _ hc
      have hg : Guides ⟨solver, evaluator, selection, expired, order, candidates⟩ choice :=
        ⟨hw, ho, ha, hm.viable⟩
      refine ⟨hg, by_contra fun hcut => ?_⟩
      exact search_unsatisfiable hg hva hh hcut .first (fun id hid => .inl (ha id hid)) hse hme
  | @found context state _ hva hco hse h =>
    refine ⟨context, hco, ?_⟩
    obtain ⟨candidates, o, rfl, hc, ho⟩ := solveContext_spec hw hco
    have ha := fun choice hv hm id => @mem_initialCandidates_choice _ _ choice id hw hh hv hm _ _ hc
    have hg := fun choice hv hm => (⟨hw, ho, ha choice hv hm, hv⟩ :
      Guides ⟨solver, evaluator, selection, expired, o, candidates⟩ choice)
    obtain ⟨ht, hsa⟩ := search_found ho hva hse
    have hp : Progress ⟨solver, evaluator, selection, expired, o, candidates⟩
        (hardClauses solver) solver.clauses.length state.assignment state.lists := by
      refine ⟨fun _ hha => hha, fun _ hha => .inl hha, ht, hsa, fun choice hv hm => ?_,
        fun p clause hl hcl => ?_⟩
      · exact search_keeps (hg choice hv hm) .first
          (fun id hid => .inl (ha choice hv hm id hid)) hse
      · exact absurd (List.getElem?_eq_some_iff.mp hcl).1 (not_lt.mpr hl)
    refine ⟨hg choice hm.viable hme, by_contra fun hcut => ?_⟩
    exact softClauses_spec ho hva hh hg enforcesHard_hardClauses (search_continues .first hse) hp h
      hcut hm

theorem GuardsReweight.not_missed (hg : GuardsReweight solver) (hw : WellFormed solver)
    (hh : Honest solver) (h : solve solver evaluator expired f selection = .ok result) :
    ¬ Missed solver evaluator result choice := by
  intro hm
  obtain ⟨context, hco, hgu, hcut⟩ := solve_missed hw hh h hm
  obtain ⟨candidates, order, rfl, _⟩ := solveContext_spec hw hco
  exact hg.not_cutOff hgu hcut

end Solving

/-- A clause that waits for all its variables. -/
def predicateClause (identity : String) (ids : List ℕ) (accepted : List Value → Bool)
    (soft : Bool) : Clause where
  canonicalIdentity := identity
  vars := ids
  evaluate assignment := match ids.mapM assignment with
    | none => .undetermined
    | some values => if accepted values then .satisfied else .violated
  soft := soft
  expression := none

theorem mapM_extends {assignment : Assignment} (h : Extends assignment extended) {ids : List ℕ}
    {v : List Value} (hv : ids.mapM assignment = some v) : ids.mapM extended = some v := by
  induction ids generalizing v with
  | nil => exact hv
  | cons id ids ih =>
    simp only [mapM_cons, Option.bind_eq_bind, Option.bind_eq_some_iff] at hv ⊢
    obtain ⟨value, hva, reduced, hr, he⟩ := hv
    exact ⟨value, h id value hva, reduced, ih hr, he⟩

theorem honest_of_predicates
    (h : ∀ clause ∈ solver.clauses, ∃ identity ids a s,
      clause = predicateClause identity ids a s) :
    Honest solver := by
  intro clause hc assignment choice _ he hv
  obtain ⟨identity, ids, a, s, rfl⟩ := h clause hc
  simp only [predicateClause] at hv ⊢
  split at hv
  · cases hv
  · next v hva =>
    rw [mapM_extends he hva]
    dsimp only
    rw [hv]
    exact fun h => nomatch h

def guardLimits : Limits := ⟨8, 8, 64, 100, sixtyFour_lt⟩

def bitProfile (width : ℕ) : Profile := ⟨.bitVector, width, false, "bit", false⟩

def guardProfiles (id : ℕ) : Option Profile := [bitProfile 1, bitProfile 1, bitProfile 2][id]?

def zeroGuard : Expression :=
  ⟨[⟨.variableNode, bitProfile 1, 0, [], []⟩, ⟨.constant, bitProfile 1, 0, [.zero], []⟩,
    ⟨.equal, logicalProfile, 0, [], [0, 1]⟩], 2⟩

def guardVariables : List Variable :=
  [⟨"a", bitProfile 1, [[.zero], [.one]]⟩, ⟨"g", bitProfile 1, [[.zero], [.one]]⟩,
    ⟨"b", bitProfile 2, [[.zero, .zero], [.zero, .one]]⟩]

def sameClause : Clause :=
  predicateClause "a == g" [0, 1] (fun values => values[0]? = values[1]?) false

def zeroClause : Clause := predicateClause "a == 0" [0] (fun values => values = [[.zero]]) false

def oneClauseOfG : Clause := predicateClause "g == 1" [1] (fun values => values = [[.one]]) false

def strictGuard : RetainedDistribution :=
  ⟨⟨"g dist", 1, [⟨[.zero], [.zero], 1, .perValue⟩], some zeroGuard⟩, [1, 0]⟩

def guardedProblem : Solver :=
  ⟨guardLimits, guardVariables, [zeroClause, oneClauseOfG], [strictGuard], [], 6⟩

def sumClause : Clause :=
  predicateClause "g + b == 1" [1, 2]
    (fun values => values = [[.one], [.zero, .zero]] || values = [[.zero], [.one, .zero]]) false

def staleProblem : Solver :=
  ⟨guardLimits, guardVariables, [sameClause, sumClause], [strictGuard], [], 6⟩

theorem guardVariables_registered :
    Registered guardLimits ⟨guardLimits, guardVariables, [], [], [], 6⟩ := by
  have hf : Registered guardLimits ⟨guardLimits, guardVariables.take 1, [], [], [], 2⟩ :=
    @Registered.addVariable _ _ _ ⟨"a", bitProfile 1, [[.zero], [.one]]⟩ .empty rfl
  have hs : Registered guardLimits ⟨guardLimits, guardVariables.take 2, [], [], [], 4⟩ :=
    @Registered.addVariable _ _ _ ⟨"g", bitProfile 1, [[.zero], [.one]]⟩ hf rfl
  exact @Registered.addVariable _ _ _
    ⟨"b", bitProfile 2, [[.zero, .zero], [.zero, .one]]⟩ hs rfl

theorem guardedProblem_registered : Registered guardLimits guardedProblem := by
  have hz : Registered guardLimits ⟨guardLimits, guardVariables, [zeroClause], [], [], 6⟩ :=
    @Registered.addClause _ _ _ zeroClause guardVariables_registered rfl
  have ho : Registered guardLimits
      ⟨guardLimits, guardVariables, [zeroClause, oneClauseOfG], [], [], 6⟩ :=
    @Registered.addClause _ _ _ oneClauseOfG hz rfl
  exact @Registered.addDistribution _ _ _ strictGuard.toDistribution ho rfl

theorem guardedProblem_honest : Honest guardedProblem := by
  refine honest_of_predicates fun clause hc => ?_
  simp only [guardedProblem, mem_cons, not_mem_nil, or_false] at hc
  rcases hc with rfl | rfl
  · exact ⟨_, _, _, _, rfl⟩
  · exact ⟨_, _, _, _, rfl⟩

theorem guardedProblem_guards : GuardsReweight guardedProblem := by
  intro id _
  refine .inr fun clause hc hid o ho => ?_
  have hs : ∃ only, clause.vars = [only] := by
    simp only [guardedProblem, mem_cons, not_mem_nil, or_false] at hc
    rcases hc with rfl | rfl
    · exact ⟨0, rfl⟩
    · exact ⟨1, rfl⟩
  obtain ⟨only, hon⟩ := hs
  rw [hon, mem_singleton] at hid ho
  rw [hid, ho]

theorem guardedProblem_solve :
    solve guardedProblem (graphEvaluator guardProfiles)
      (fun _ => false) 8 0 = .ok ⟨.unsatisfiable, .none, [], 1⟩ := by
  decide +kernel

end FsimRuntime.Constraint

import FsimRuntime.ConstraintCandidates

/-!
# The rounds of a search

What one round of the search can do, and which variables are assigned at the
head of every round.
-/

namespace FsimRuntime.Constraint
open List Function

open Simir (Value)

variable {c : SearchContext} {e : ℕ → Bool} {state next : SearchState} {lists : Lists}
  {index f : ℕ} {o : Outcome}

def SearchContext.variableAt (context : SearchContext) (depth : ℕ) : ℕ :=
  context.order.getD depth 0

structure Attempt (context : SearchContext) (enforced : ℕ → Bool) (state : SearchState)
    (lists : Lists) (index : ℕ) (violated : Bool) (next : SearchState) : Prop where
  rebuilt : rebuild context state (context.variableAt state.depth) = .ok lists
  candidate :
    (lists.candidates (context.variableAt state.depth))[state.nextIndex state.depth]? = some index
  assignment : next.assignment = update state.assignment (context.variableAt state.depth)
    (some (valueAt context.solver lists (context.variableAt state.depth) index))
  nextIndex : next.nextIndex = update state.nextIndex state.depth (state.nextIndex state.depth + 1)
  depth : next.depth = state.depth
  checked : violatedAfter context.solver context.evaluator enforced (context.variableAt state.depth)
    next.assignment lists = (violated, next.lists)

structure Dry (context : SearchContext) (state : SearchState) (lists : Lists) : Prop where
  rebuilt : rebuild context state (context.variableAt state.depth) = .ok lists
  length : (lists.candidates (context.variableAt state.depth)).length ≤
    state.nextIndex state.depth

inductive Round (context : SearchContext) (enforced : ℕ → Bool) (state : SearchState) :
    Option Outcome → SearchState → Prop
  | exhausted (resource : Resource) (next : SearchState) : next.lists = state.lists ∨
      rebuild context state (context.variableAt state.depth) = .ok next.lists →
      Round context enforced state (some (.exhausted resource)) next
  | unsatisfiable {next : SearchState} : Dry context state next.lists → state.depth = 0 →
      Round context enforced state (some .unsatisfiable) next
  | back {next : SearchState} : Dry context state next.lists → state.depth = next.depth + 1 →
      next.assignment = update state.assignment (context.variableAt state.depth) none →
      next.nextIndex = update state.nextIndex state.depth 0 →
      Round context enforced state none next
  | conflict {lists : Lists} {index : ℕ} {next : SearchState} :
      Attempt context enforced state lists index true next →
        Round context enforced state none next
  | deeper {lists : Lists} {index : ℕ} {next : SearchState} :
      Attempt context enforced state lists index false next →
        state.depth + 1 < context.solver.vars.length →
      Round context enforced state none { next with depth := state.depth + 1 }
  | rejected {lists : Lists} {index : ℕ} {next : SearchState} {clause : Clause} :
      Attempt context enforced state lists index false next →
      clause ∈ enforcedClauses context.solver enforced →
      clause.evaluate next.assignment = .violated →
      Round context enforced state none next
  | found {lists : Lists} {index : ℕ} {next : SearchState} :
      Attempt context enforced state lists index false next →
        context.solver.vars.length ≤ state.depth + 1 →
      (∀ clause ∈ context.solver.clauses, clause.evaluate next.assignment ≠ .undetermined) →
      (∀ clause ∈ enforcedClauses context.solver enforced,
        clause.evaluate next.assignment = .satisfied) →
      Round context enforced state (some .found) next

variable {s : Solver} {found : Option Outcome} {v : Bool} {k : ℕ}

theorem enforcedClauses_subset {clause : Clause} (h : clause ∈ enforcedClauses s e) :
    clause ∈ s.clauses := by
  obtain ⟨index, hc, _⟩ := mem_enforcedClauses.mp h
  exact mem_of_getElem? hc

theorem complete_spec (h : complete c e state = .ok found) :
    (∀ clause ∈ c.solver.clauses, clause.evaluate state.assignment ≠ .undetermined) ∧
    (found = some .found ∧
          (∀ clause ∈ enforcedClauses c.solver e,
            clause.evaluate state.assignment = .satisfied) ∨
        found = none ∧
          ∃ clause ∈ enforcedClauses c.solver e,
          clause.evaluate state.assignment = .violated) := by
  unfold complete at h
  split_ifs at h with hu ha
  · have hd : ∀ clause ∈ c.solver.clauses,
        clause.evaluate state.assignment ≠ .undetermined := by
      simpa using hu
    cases h
    refine ⟨hd, .inl ⟨rfl, fun clause hc => ?_⟩⟩
    have hu := hd clause (enforcedClauses_subset hc)
    cases hs : clause.evaluate state.assignment <;> simp_all
  · cases h
    refine ⟨by simpa using hu, .inr ⟨rfl, ?_⟩⟩
    simpa using ha

section
variable (hr : rebuild c state (c.variableAt state.depth) = .ok lists)
  (hl : state.nextIndex state.depth < (lists.candidates (c.variableAt state.depth)).length)
include hr hl

theorem assignNext_attempt : Attempt c e state lists
      ((lists.candidates (c.variableAt state.depth)).getD (state.nextIndex state.depth) 0)
      (assignNext c e { state with lists, readings := state.readings + 1 }
        (c.variableAt state.depth)).1
      (assignNext c e { state with lists, readings := state.readings + 1 }
        (c.variableAt state.depth)).2 := by
  refine ⟨hr, ?_, rfl, rfl, rfl, rfl⟩
  rw [getElem?_eq_getElem hl, getD_eq_getElem _ _ hl]

theorem tryNext_round (h : tryNext c e { state with lists, readings := state.readings + 1 }
      (c.variableAt state.depth) = .ok (found, next)) : Round c e state found next := by
  have ha := @assignNext_attempt c e state lists hr hl
  unfold tryNext at h
  dsimp only at h
  split_ifs at h with hv hde
  · cases h
    rw [hv] at ha
    exact .conflict ha
  · cases h
    rw [Bool.eq_false_iff.mpr hv] at ha
    exact .deeper ha hde
  · rw [Bool.eq_false_iff.mpr hv] at ha
    obtain ⟨_, hc, h⟩ := bind_ok.mp h
    cases h
    obtain ⟨hd, ⟨rfl, hs⟩ | ⟨rfl, clause, hcl, hv⟩⟩ := complete_spec hc
    · exact .found ha (not_lt.mp hde) hd hs
    · exact .rejected ha hcl hv

end

theorem searchStep_round (h : searchStep c e state = .ok (found, next)) :
    Round c e state found next := by
  unfold searchStep at h
  dsimp only at h
  by_cases he : c.expired (state.readings + 1 - 1) = true
  · rw [if_pos he] at h
    cases h
    exact .exhausted _ _ (.inl rfl)
  rw [if_neg he] at h
  obtain ⟨lists, hr, h⟩ := bind_ok.mp h
  split_ifs at h with hl hs
  · unfold backtrack at h
    by_cases hd : state.depth = 0
    · rw [if_pos hd] at h
      cases h
      exact .unsatisfiable ⟨hr, hl⟩ hd
    · rw [if_neg hd] at h
      cases h
      exact .back ⟨hr, hl⟩ (Nat.succ_pred_eq_of_ne_zero hd).symm rfl rfl
  · cases h
    exact .exhausted _ _ (.inr hr)
  · exact tryNext_round hr (not_le.mp hl) h

theorem affected_subset {assigned : ℕ} : ∀ clause ∈ affected s e assigned,
    clause ∈ s.clauses :=
  fun _ hc => enforcedClauses_subset (mem_of_mem_filter hc)

theorem Attempt.solves (h : Attempt c e state lists index v next) :
    Solves c.solver c.evaluator next.assignment c.solver.clauses lists next.lists := by
  have hs := (@violatedAfter_spec c.solver c.evaluator next.assignment lists e
    (c.variableAt state.depth)).1
  rw [h.checked] at hs
  exact hs.mono affected_subset

theorem Round.solves {ended : Option Outcome} (h : Round c e state ended next) : ∃ r a,
      (r = state.lists ∨ rebuild c state (c.variableAt state.depth) = .ok r) ∧
      Solves c.solver c.evaluator a c.solver.clauses r next.lists := by
  cases h with
  | exhausted _ _ hl => exact ⟨next.lists, unassigned, hl, .unchanged⟩
  | unsatisfiable hd | back hd => exact ⟨next.lists, unassigned, .inr hd.rebuilt, .unchanged⟩
  | conflict ha | deeper ha | rejected ha | found ha => exact ⟨_, _, .inr ha.rebuilt, ha.solves⟩

theorem searchLoop_invariant {Keeps : SearchState → Prop}
    (hr : ∀ state next, Keeps state → searchStep c e state = .ok (none, next) → Keeps next)
    (hs : Keeps state) (h : searchLoop c e f state = .ok (o, next)) :
    ∃ last, Keeps last ∧ searchStep c e last = .ok (some o, next) := by
  induction f generalizing state with
  | zero => cases h
  | succ f ih =>
    obtain ⟨⟨ended, after⟩, hst, h⟩ := bind_ok.mp h
    cases ended with
    | some ended =>
      cases h
      exact ⟨state, hs, hst⟩
    | none => exact ih (hr state after hs hst) h

section Hard

variable {s : Solver}

/-- The clauses that a search enforces include the hard ones. -/
def EnforcesHard (solver : Solver) (enforced : ℕ → Bool) : Prop :=
  ∀ index clause, solver.clauses[index]? = some clause → clause.soft = false →
    enforced index = true

theorem EnforcesHard.update (h : EnforcesHard s e) : EnforcesHard s (update e index true) := by
  intro other clause hc hh
  by_cases ho : other = index
  · rw [ho, update_self]
  · rw [update_of_ne ho]
    exact h other clause hc hh

theorem enforcesHard_hardClauses : EnforcesHard s (hardClauses s) := by
  intro index clause hc hh
  simp [hardClauses, hc, hh]

end Hard

section Reached

/-- The states of the searches of a solve. The first search enforces the hard clauses; a later one
enforces soft clauses with them and begins with the lists that are left. -/
inductive Reached (context : SearchContext) : (ℕ → Bool) → SearchState → Prop
  | first : Reached context (hardClauses context.solver)
      ⟨unassigned, fun _ => 0, 0, ⟨context.allowed, fun _ => []⟩, 0, 1⟩
  | round {enforced : ℕ → Bool} {state next : SearchState} : Reached context enforced state →
      searchStep context enforced state = .ok (none, next) → Reached context enforced next
  | again {enforced joined : ℕ → Bool} {outcome : Outcome} {state next : SearchState} :
      Reached context enforced state →
        searchStep context enforced state = .ok (some outcome, next) →
      EnforcesHard context.solver joined →
      Reached context joined ⟨unassigned, fun _ => 0, 0, next.lists, next.steps, next.readings⟩

/-- A search that has assigned the next value checks the assignment against its lists. -/
def Checked (context : SearchContext) (enforced : ℕ → Bool) (assignment : Assignment)
    (lists : Lists) : Prop :=
  ∃ state index violated next, Reached context enforced state ∧
    Attempt context enforced state lists index violated next ∧ next.assignment = assignment

/-- Searches that enforce the hard clauses may begin with the lists of a state. -/
def Continues (context : SearchContext) (lists : Lists) (steps readings : ℕ) : Prop :=
  ∀ joined, EnforcesHard context.solver joined →
    Reached context joined ⟨unassigned, fun _ => 0, 0, lists, steps, readings⟩

theorem search_continues {steps readings : ℕ}
    (hs : Reached c e ⟨unassigned, fun _ => 0, 0, lists, steps, readings⟩)
    (h : search c e f lists steps readings = .ok (o, next)) :
    Continues c next.lists next.steps next.readings := by
  have hround (state next : SearchState) (hr : Reached c e state)
      (hn : searchStep c e state = .ok (none, next)) : Reached c e next := hr.round hn
  obtain ⟨last, hlast, hstep⟩ := searchLoop_invariant hround hs h
  exact fun _ => hlast.again hstep

end Reached

def answer (values : List Value) : Assignment := fun id => values[id]?

/-- Every variable has one place in the order of a search. -/
def SearchContext.Ordered (context : SearchContext) : Prop :=
  context.order.Perm (List.range context.solver.vars.length)

section
variable (h : c.Ordered)
include h

theorem SearchContext.Ordered.length : c.order.length = c.solver.vars.length := by
  simpa using h.length_eq

theorem SearchContext.Ordered.variableAt_inj {l : ℕ} (hk : k < c.solver.vars.length)
    (hl : l < c.solver.vars.length) (he : c.variableAt k = c.variableAt l) : k = l := by
  rw [← h.length] at hk hl
  rw [variableAt, variableAt, getD_eq_getElem _ _ hk, getD_eq_getElem _ _ hl] at he
  exact (h.nodup_iff.mpr nodup_range).getElem_inj_iff.mp he

theorem SearchContext.Ordered.exists_variableAt {id : ℕ}
    (hid : id < c.solver.vars.length) : ∃ k < c.solver.vars.length, c.variableAt k = id := by
  obtain ⟨k, hk, hg⟩ := getElem_of_mem (h.mem_iff.mpr (mem_range.mpr hid))
  exact ⟨k, h.length ▸ hk, by rw [variableAt, getD_eq_getElem _ _ hk, hg]⟩

theorem SearchContext.Ordered.variableAt_lt (hk : k < c.solver.vars.length) :
    c.variableAt k < c.solver.vars.length := by
  rw [← h.length] at hk
  rw [variableAt, getD_eq_getElem _ _ hk]
  exact mem_range.mp (h.mem_iff.mp (getElem_mem hk))

end

structure Placed (context : SearchContext) (state : SearchState) : Prop where
  depth_lt : state.depth < context.solver.vars.length
  earlier : ∀ k < state.depth, state.assignment (context.variableAt k) ≠ none
  later : ∀ k < context.solver.vars.length, state.depth < k →
    state.assignment (context.variableAt k) = none
  fresh : ∀ k, state.depth < k → state.nextIndex k = 0
  started : ∀ k < state.depth, state.nextIndex k ≠ 0
  current : state.nextIndex state.depth = 0 →
    state.assignment (context.variableAt state.depth) = none
  outside : ∀ id, context.solver.vars.length ≤ id → state.assignment id = none

section
variable (h : Attempt c e state lists index v next)
include h

theorem Attempt.assignment_of_ne (ho : c.Ordered)
    (hp : Placed c state) (hk : k < c.solver.vars.length) (hn : k ≠ state.depth) :
    next.assignment (c.variableAt k) = state.assignment (c.variableAt k) := by
  rw [h.assignment, update_of_ne]
  exact fun he => hn (ho.variableAt_inj hk hp.depth_lt he)

theorem Attempt.placed (ho : c.Ordered) (hp : Placed c state) : Placed c next := by
  have hd := hp.depth_lt
  refine ⟨by rw [h.depth]; exact hd, fun k hk => ?_, fun k hk hl => ?_, fun k hl => ?_,
    fun k hk => ?_, fun hz => ?_, fun id hid => ?_⟩
  · rw [h.depth] at hk
    rw [h.assignment_of_ne ho hp (by omega) (by omega)]
    exact hp.earlier k hk
  · rw [h.depth] at hl
    rw [h.assignment_of_ne ho hp hk (by omega)]
    exact hp.later k hk hl
  · rw [h.depth] at hl
    rw [h.nextIndex, update_of_ne (by omega)]
    exact hp.fresh k hl
  · rw [h.depth] at hk
    rw [h.nextIndex, update_of_ne (by omega)]
    exact hp.started k hk
  · rw [h.depth, h.nextIndex, update_self] at hz
    omega
  · have := ho.variableAt_lt hd
    rw [h.assignment, update_of_ne (by omega)]
    exact hp.outside id hid

theorem Attempt.assigned : next.assignment (c.variableAt state.depth)
      = some (valueAt c.solver lists (c.variableAt state.depth) index) := by
  rw [h.assignment, update_self]

end

theorem Placed.round (ho : c.Ordered) (hp : Placed c state)
    (h : Round c e state none next) : Placed c next := by
  cases h with
  | back _ hd hass hn =>
    have hlt := hp.depth_lt
    have hke (k : ℕ) (hk : k < c.solver.vars.length) (hne : k ≠ state.depth) :
        next.assignment (c.variableAt k) = state.assignment (c.variableAt k) := by
      rw [hass, update_of_ne]
      exact fun heq => hne (ho.variableAt_inj hk hlt heq)
    have hs (k : ℕ) (hk : k < state.depth) : next.nextIndex k ≠ 0 := by
      rw [hn, update_of_ne (by omega)]
      exact hp.started k hk
    refine ⟨by omega, fun k hk => ?_, fun k hk hl => ?_, fun k hl => ?_, fun k hk =>
      hs k (by omega), fun hz => absurd hz (hs next.depth (by omega)), fun id hid => ?_⟩
    · rw [hke k (by omega) (by omega)]
      exact hp.earlier k (by omega)
    · by_cases hne : k = state.depth
      · rw [hass, hne, update_self]
      · rw [hke k hk hne]
        exact hp.later k hk (by omega)
    · rw [hn]
      by_cases hne : k = state.depth
      · rw [hne, update_self]
      · rw [update_of_ne hne]
        exact hp.fresh k (by omega)
    · have := ho.variableAt_lt hlt
      rw [hass, update_of_ne (by omega)]
      exact hp.outside id hid
  | conflict ha | rejected ha => exact ha.placed ho hp
  | deeper ha hlt =>
    obtain ⟨-, he, hl, hf, hs, -, hou⟩ := ha.placed ho hp
    rw [ha.depth] at he hl hf hs
    refine ⟨hlt, fun k hk => ?_, fun k hk hg => hl k hk (Nat.lt_of_succ_lt hg),
      fun k hg => hf k (Nat.lt_of_succ_lt hg), fun k hk => ?_,
      fun _ => hl _ hlt (Nat.lt_succ_self _), hou⟩
    · rcases Nat.lt_succ_iff_lt_or_eq.mp hk with hk | rfl
      · exact he k hk
      · rw [ha.assigned]
        exact Option.some_ne_none _
    · rcases Nat.lt_succ_iff_lt_or_eq.mp hk with hk | rfl
      · exact hs k hk
      · have hst := congrFun ha.nextIndex state.depth
        rw [update_self] at hst
        dsimp only
        omega

theorem placed_start (lists : Lists) (steps r : ℕ) (hv : 0 < c.solver.vars.length) :
    Placed c ⟨unassigned, fun _ => 0, 0, lists, steps, r⟩ :=
  ⟨hv, fun _ hk => absurd hk (Nat.not_lt_zero _), fun _ _ _ => rfl, fun _ _ => rfl,
    fun _ hk => absurd hk (Nat.not_lt_zero _), fun _ => rfl, fun _ _ => rfl⟩

structure Total (solver : Solver) (assignment : Assignment) : Prop where
  assigned : ∀ id < solver.vars.length, assignment id ≠ none
  outside : ∀ id, solver.vars.length ≤ id → assignment id = none

theorem Attempt.total (ho : c.Ordered) (hp : Placed c state)
    (h : Attempt c e state lists index v next)
    (hd : c.solver.vars.length ≤ state.depth + 1) : Total c.solver next.assignment := by
  have hn := h.placed ho hp
  refine ⟨fun id hid => ?_, hn.outside⟩
  obtain ⟨k, hk, rfl⟩ := ho.exists_variableAt hid
  by_cases hl : k = state.depth
  · rw [hl, h.assigned]
    exact Option.some_ne_none _
  · exact hn.earlier k (by rw [h.depth]; omega)

theorem search_found {steps r : ℕ} (ho : c.Ordered) (hv : c.solver.vars ≠ [])
    (h : search c e f lists steps r = .ok (.found, next)) : Total c.solver next.assignment ∧
      ∀ clause ∈ enforcedClauses c.solver e, clause.evaluate next.assignment = .satisfied := by
  have hst : Placed c ⟨unassigned, fun _ => 0, 0, lists, steps, r⟩ :=
    placed_start lists steps r (length_pos_iff.mpr hv)
  obtain ⟨last, hl, hr⟩ :=
    searchLoop_invariant (fun _ _ hsta hr => hsta.round ho (searchStep_round hr)) hst h
  cases searchStep_round hr with
  | found ha hd _ hs => exact ⟨ha.total ho hl hd, hs⟩

theorem answer_retainValues {a : Assignment} (h : Total s a) : answer (retainValues s a) = a := by
  funext id
  unfold answer retainValues
  by_cases hid : id < s.vars.length
  · rw [getElem?_map, getElem?_range hid]
    obtain ⟨value, hv⟩ := Option.ne_none_iff_exists'.mp (h.assigned id hid)
    simp [hv]
  · rw [getElem?_eq_none (by simpa using hid), h.outside id (not_lt.mp hid)]

theorem solveContext_spec {evaluator : Evaluator} {expired : ℕ → Bool} {seed : BitVec 64}
    (hw : WellFormed s)
    (h : solveContext s evaluator expired seed = .ok c) : ∃ candidates order,
    c = ⟨s, evaluator, seed, expired, order, candidates⟩ ∧
      initialCandidates s evaluator seed = .ok candidates ∧ c.Ordered := by
  obtain ⟨candidates, hc, h⟩ := bind_ok.mp h
  obtain ⟨order, hor, h⟩ := bind_ok.mp h
  cases h
  exact ⟨candidates, order, rfl, mapError_ok.mp hc,
    variableOrder_perm hw.pairs hw.clauses (mapError_ok.mp hor)⟩

/-- The ways in which a solve ends. -/
inductive Ends (solver : Solver) (evaluator : Evaluator) (expired : ℕ → Bool) (fuel : ℕ)
    (selection : BitVec 64) : SolveResult → Prop
  | expired : Ends solver evaluator expired fuel selection (finish (.exhausted .elapsedWork) [] 0)
  | empty {result : SolveResult} : solver.vars = [] → solveEmpty solver = .ok result →
      Ends solver evaluator expired fuel selection result
  | found {context : SearchContext} {state : SearchState} {result : SolveResult} :
      solver.vars ≠ [] → solveContext solver evaluator expired selection = .ok context →
      search context (hardClauses solver) fuel ⟨context.allowed, fun _ => []⟩ 0 1 =
        .ok (.found, state) →
      softClauses context fuel solver.clauses.length (hardClauses solver) state.assignment state =
        .ok result →
      Ends solver evaluator expired fuel selection result
  | failed {context : SearchContext} {outcome : Outcome} {state : SearchState} :
      solver.vars ≠ [] → solveContext solver evaluator expired selection = .ok context →
      search context (hardClauses solver) fuel ⟨context.allowed, fun _ => []⟩ 0 1 =
        .ok (outcome, state) → outcome ≠ .found →
      Ends solver evaluator expired fuel selection (finish outcome [] state.steps)

theorem solve_ends {evaluator : Evaluator} {expired : ℕ → Bool} {seed : BitVec 64}
    {result : SolveResult}
    (h : solve s evaluator expired f seed = .ok result) :
    Ends s evaluator expired f seed result := by
  unfold solve at h
  split_ifs at h with he hv
  · cases h
    exact .expired
  · exact .empty hv h
  · obtain ⟨context, hc, h⟩ := bind_ok.mp h
    obtain ⟨⟨o, state⟩, hs, h⟩ := bind_ok.mp h
    cases o with
    | found => exact .found hv hc hs h
    | unsatisfiable | exhausted r =>
      cases h
      exact .failed hv hc hs fun hf => nomatch hf

end FsimRuntime.Constraint

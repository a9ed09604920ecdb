import FsimRuntime.RandcDomains
import FsimRuntime.ConstraintValues
import FsimRuntime.ConstraintCompleteness

/-!
# Cycles of randc properties over sequences of calls

A call draws an unconstrained property from the domain that its staged state
offers, and commits the draw. The draws of a property fall into complete cycles
as long as no call restarts a cycle that has begun: a property with an exact
domain is restarted with all others when the solver fails, the keyed walk of a
wide property is not.
-/

namespace FsimRuntime.Randomize

open Constraint CyclicDraws List
open Simir (Value)

variable {call : Call} {states states' : List RandomState} {s s' : Solver}
  {staged staged' : List Staged} {entry entry' : Staged} {l : Limits} {index key : ℕ}

/-- The variable of a property has its offered domain. -/
def Offered (solver : Solver) (index : ℕ) (entry : Staged) : Prop :=
  domainOf solver index = entry.domain ∧ entry.domain.Nodup ∧ index < solver.vars.length

theorem Configured.registered (h : Configured s s') (hr : Registered l s) : Registered l s' := by
  induction h with
  | start => exact hr
  | addVariable _ ha ih => exact ih.addVariable ha
  | addClause _ ha ih => exact ih.addClause ha
  | discardSoftClauses ids _ ih => exact ih.discardSoftClauses ids
  | addDistribution _ ha ih => exact ih.addDistribution ha
  | addSolveBefore _ ha ih => exact ih.addSolveBefore ha

theorem addVariable_ok {i : Variable} (h : addVariable s i = .ok s') :
    s'.vars = s.vars ++ [i] ∧ i.domain.Nodup := by
  unfold addVariable at h
  split_ifs at h with hv hit hd hw hn hb
  cases h
  exact ⟨rfl, hn⟩

theorem addClause_vars {c : Clause} (h : addClause s c = .ok s') : s'.vars = s.vars := by
  unfold addClause at h
  split_ifs at h
  cases h
  rfl

theorem addDistribution_vars {d : Distribution} (h : addDistribution s d = .ok s') :
    s'.vars = s.vars := by
  unfold addDistribution at h
  split at h
  · cases h
  · split_ifs at h
    obtain ⟨w, -, h⟩ := bind_ok.mp h
    cases h
    rfl

theorem addSolveBefore_vars {earlier later : ℕ} (h : addSolveBefore s earlier later = .ok s') :
    s'.vars = s.vars := by
  unfold addSolveBefore at h
  split at h
  · split_ifs at h
    · cases h
      rfl
    · cases h
      rfl
  · cases h

theorem Configured.vars_prefix (h : Configured s s') : s.vars <+: s'.vars := by
  induction h with
  | start => exact prefix_rfl
  | addVariable _ ha ih =>
    rw [(addVariable_ok ha).1]
    exact ih.trans (prefix_append _ _)
  | addClause _ ha ih => exact addClause_vars ha ▸ ih
  | discardSoftClauses ids _ ih => exact ih
  | addDistribution _ ha ih => exact addDistribution_vars ha ▸ ih
  | addSolveBefore _ ha ih => exact addSolveBefore_vars ha ▸ ih

theorem Offered.extend (h : Offered s index entry) (hv : s.vars <+: s'.vars) :
    Offered s' index entry := by
  obtain ⟨r, hr⟩ := hv
  obtain ⟨hd, hn, hl⟩ := h
  refine ⟨?_, hn, ?_⟩
  · rw [← hd, domainOf, domainOf, ← hr, getElem?_append_left hl]
  · rw [← hr, length_append]
    omega

theorem getElem?_concat {α : Type} {list : List α} {later found : α}
    (h : (list ++ [later])[index]? = some found) :
    list[index]? = some found ∨ index = list.length ∧ found = later := by
  rcases Nat.lt_or_ge index list.length with hl | hg
  · rw [getElem?_append_left hl] at h
    exact .inl h
  · rw [getElem?_append_right hg] at h
    rcases Nat.eq_zero_or_pos (index - list.length) with hz | hp
    · rw [hz] at h
      exact .inr ⟨by omega, (Option.some_inj.mp h).symm⟩
    · rw [getElem?_eq_none hp] at h
      cases h

structure Prepared (limits : Limits) (states : List RandomState) (items : List Item)
    (solver : Solver) (staged : List Staged) : Prop where
  registered : Registered limits solver
  items_eq : staged.map (·.item) = items
  stages : ∀ entry ∈ staged, stageItem states entry.item = .ok entry
  offered : ∀ index entry, staged[index]? = some entry → Offered solver index entry

variable {i : Item} {items : List Item} {registered r : Solver × List Staged}
  {found : List Variable × List (List ℕ) × ℕ × List (List ℕ)}

theorem stageItem_item (h : stageItem states i = .ok entry) : entry.item = i := by
  unfold stageItem at h
  split at h
  · cases h
    rfl
  · cases h
    rfl
  · obtain ⟨state, -, h⟩ := bind_ok.mp h
    obtain ⟨d, -, h⟩ := bind_ok.mp h
    cases h
    rfl
  · obtain ⟨state, -, h⟩ := bind_ok.mp h
    cases h
    rfl

theorem addItem_prepared (h : addItem states (s, staged) i = .ok registered)
    (hp : Prepared l states items s staged) (hl : staged.length = s.vars.length) :
    Prepared l states (items ++ [i]) registered.1 registered.2 ∧
      registered.2.length = registered.1.vars.length := by
  obtain ⟨entry, he, h⟩ := bind_ok.mp h
  obtain ⟨a, had, h⟩ := bind_ok.mp h
  obtain ⟨w, hw, h⟩ := bind_ok.mp h
  cases h
  have hv : w.vars = a.vars ∧ Registered l w := by
    have hr := hp.registered.addVariable had
    split at hw
    · exact ⟨addDistribution_vars hw, hr.addDistribution hw⟩
    · cases hw
      exact ⟨rfl, hr⟩
  obtain ⟨ha, hn⟩ := addVariable_ok had
  have hal : w.vars = s.vars ++ [⟨i.identity, i.profile, entry.domain⟩] := hv.1.trans ha
  have hit := stageItem_item he
  refine ⟨⟨hv.2, ?_, fun o ho => ?_, fun index o ho => ?_⟩, ?_⟩
  · rw [map_append, hp.items_eq, map_singleton, hit]
  · rcases mem_append.mp ho with ho | ho
    · exact hp.stages o ho
    · rw [mem_singleton.mp ho, hit]
      exact he
  · rcases getElem?_concat ho with ho | ⟨hin, rfl⟩
    · exact (hp.offered index o ho).extend (hal ▸ prefix_append _ _)
    · refine ⟨?_, hn, ?_⟩
      · rw [domainOf, hal, hin, hl, getElem?_append_right Nat.le.refl, Nat.sub_self]
        rfl
      · rw [hal, length_append, hin, hl]
        exact Nat.lt_succ_self _
  · rw [hal, length_append, length_append, hl]
    rfl

theorem addItems_prepared {later : List Item}
    (h : later.foldlM (addItem states) (s, staged) = .ok registered)
    (hp : Prepared l states items s staged) (hl : staged.length = s.vars.length) :
    Prepared l states (items ++ later) registered.1 registered.2 := by
  induction later generalizing items s staged with
  | nil =>
    cases h
    rwa [append_nil]
  | cons i later ih =>
    obtain ⟨next, hne, h⟩ := foldlM_cons_ok.mp h
    obtain ⟨hs, hn⟩ := addItem_prepared hne hp hl
    have := ih h hs hn
    rwa [append_assoc] at this

theorem prepare_prepared (h : prepare call states = .ok (s, staged)) :
    Prepared call.limits states call.items s staged := by
  obtain ⟨⟨a, _⟩, had, h⟩ := bind_ok.mp h
  obtain ⟨c, hc, h⟩ := bind_ok.mp h
  cases h
  have hst : Prepared call.limits states [] (.empty call.limits) [] :=
    ⟨.empty, rfl, by simp, by simp⟩
  have ha := addItems_prepared had hst rfl
  have hs := call.configured _ _ hc
  exact ⟨hs.registered ha.registered, ha.items_eq, ha.stages,
    fun index entry he => (ha.offered index entry he).extend hs.vars_prefix⟩

/-- What a restart makes of a property. -/
inductive Restarted : Staged → Staged → Prop
  | exact {entry : Staged} {base domain : List Value} : entry.item.draw = .exact base →
      randcDomain base { entry.state with cycle := entry.state.cycle + 1, usedValues := [] } =
        .ok domain →
      Restarted entry ⟨entry.item,
        { entry.state with cycle := entry.state.cycle + 1, usedValues := [] }, domain⟩
  | kept {entry : Staged} : (∀ base, entry.item.draw ≠ .exact base) → Restarted entry entry

theorem replaceDomain_ok {d : List Value} (h : replaceDomain s index d = .ok s') :
    domainOf s' index = d ∧ d.Nodup ∧ s'.vars.length = s.vars.length ∧
      index < s.vars.length ∧ (∀ o ≠ index, domainOf s' o = domainOf s o) ∧
      s'.clauses = s.clauses := by
  unfold replaceDomain at h
  split at h
  · cases h
  · next retained hr =>
    split_ifs at h with he hu hw hb
    cases h
    have hl := (List.getElem?_eq_some_iff.mp hr).1
    refine ⟨?_, ?_, length_set, hl, fun o ho => ?_, rfl⟩
    · simp [domainOf, hl]
    · by_contra hn
      exact hw (.inr hn)
    · simp [domainOf, getElem?_set_ne ho.symm]

structure Restarting (solver : Solver) (staged : List Staged) (solver' : Solver)
    (staged' : List Staged) : Prop where
  wellFormed : WellFormed solver'
  clauses : solver'.clauses = solver.clauses
  length : staged'.length ≤ staged.length
  restarted : ∀ index entry', staged'[index]? = some entry' →
    Offered solver' index entry' ∧ ∃ entry, staged[index]? = some entry ∧
    Restarted entry entry'
  waiting : ∀ index entry, staged'.length ≤ index → staged[index]? = some entry →
    Offered solver' index entry

theorem Restarting.step (h : restartItem (s', staged') entry = .ok r)
    (he : staged[staged'.length]? = some entry) (hs : Restarting s staged s' staged') :
    Restarting s staged r.1 r.2 ∧ r.2.length = staged'.length + 1 := by
  have hlt := (List.getElem?_eq_some_iff.mp he).1
  unfold restartItem at h
  split at h
  · next base hdr =>
    obtain ⟨next, hnx, h⟩ := bind_ok.mp h
    obtain ⟨d, hd, h⟩ := bind_ok.mp h
    obtain ⟨added, hr, h⟩ := bind_ok.mp h
    cases h
    rw [nextCycle_ok hnx] at hd ⊢
    obtain ⟨how, hn, hln, hin, hot, hc⟩ := replaceDomain_ok hr
    have hk {index : ℕ} {entry : Staged} (hne : index ≠ staged'.length)
        (h : Offered s' index entry) : Offered added index entry :=
      ⟨(hot index hne).trans h.1, h.2.1, hln.symm ▸ h.2.2⟩
    refine ⟨⟨hs.wellFormed.replaceDomain hr, hc.trans hs.clauses, by simpa using hlt,
      fun index entry' he' => ?_, fun index o hl hg => ?_⟩, by simp⟩
    · rcases getElem?_concat he' with hb | ⟨rfl, rfl⟩
      · obtain ⟨ho, hre⟩ := hs.restarted index entry' hb
        have hin : index < staged'.length := (List.getElem?_eq_some_iff.mp hb).1
        exact ⟨hk hin.ne ho, hre⟩
      · exact ⟨⟨how, hn, hln.symm ▸ hin⟩, entry, he, .exact hdr hd⟩
    · have hl : staged'.length < index := by simpa using hl
      exact hk hl.ne' (hs.waiting index o hl.le hg)
  · next hdr =>
    cases h
    refine ⟨⟨hs.wellFormed, hs.clauses, by simpa using hlt, fun index entry' he' => ?_,
      fun index o hl hg => ?_⟩, by simp⟩
    · rcases getElem?_concat he' with hb | ⟨rfl, rfl⟩
      · exact hs.restarted index entry' hb
      · exact ⟨hs.waiting _ _ Nat.le.refl he, entry', he, .kept hdr⟩
    · have hl : staged'.length < index := by simpa using hl
      exact hs.waiting index o hl.le hg

theorem restartItems_spec {b later : List Staged}
    (h : later.foldlM restartItem (s', staged') = .ok r) (hs : staged = b ++ later)
    (hb : b.length = staged'.length) (hst : Restarting s staged s' staged') :
    Restarting s staged r.1 r.2 ∧ r.2.length = staged.length := by
  induction later generalizing b s' staged' with
  | nil =>
    cases h
    exact ⟨hst, by rw [hs, append_nil, hb]⟩
  | cons entry later ih =>
    obtain ⟨next, hn, h⟩ := foldlM_cons_ok.mp h
    have he : staged[staged'.length]? = some entry := by simp [hs, ← hb]
    obtain ⟨hste, hl⟩ := hst.step hn he
    exact ih h (hs.trans (append_cons b entry later)) (by simp [hb, hl]) hste

section Answers

variable {result : SolveResult} {v : List Value}

theorem solve_offered {expired : ℕ → Bool} {f : ℕ} {evaluator : Evaluator} {seed : BitVec 64}
    (hw : WellFormed s) (hu : ∀ c ∈ s.clauses, index ∉ c.vars)
    (h : solve s evaluator expired f seed = .ok result) (hst : result.status = .satisfied)
    (ho : Offered s index entry) : ∃ value, result.values[index]? = some value ∧
    value ∈ entry.domain := by
  have hc (context : SearchContext) (hco : solveContext s evaluator expired seed = .ok context) :
      Closes context fun id value => id = index → value ∈ entry.domain := by
    obtain ⟨_, _, rfl, _⟩ := solveContext_spec hw hco
    refine ⟨fun {id place} hp _ hid => ?_, fun {unit value} hso hid => ?_⟩
    · rw [hid, ho.1] at hp ⊢
      rw [getD_eq_getElem _ _ hp]
      exact getElem_mem hp
    · obtain ⟨_, _, _, c, _, hcl, hun, _⟩ := hso
      have hop := mem_openVariables.mp (hun ▸ mem_singleton_self unit)
      exact absurd (hid ▸ hop.1) (hu c hcl)
  obtain ⟨a, hs, hva⟩ := solve_answers hw hc h hst
  obtain ⟨value, hv⟩ := Option.ne_none_iff_exists'.mp (hs.total.assigned index ho.2.2)
  refine ⟨value, ?_, hs.fits index value hv rfl⟩
  simp [hva, retainValues, ho.2.2, hv]

/-- No clause reads the property. -/
def Unread (call : Call) (states : List RandomState) (key : ℕ) : Prop :=
  ∀ solver staged, prepare call states = .ok (solver, staged) →
    ∀ index entry, staged[index]? = some entry →
    entry.item.key = key → ∀ clause ∈ solver.clauses, index ∉ clause.vars

/-- When a cycle of the property has begun, the staged domains hold a choice that satisfies the hard
clauses. -/
def Solvable (call : Call) (states : List RandomState) (key : ℕ) : Prop :=
  ∀ solver staged, prepare call states = .ok (solver, staged) →
    ∀ entry ∈ staged, entry.item.key = key →
    ∀ base, entry.item.draw = .exact base → entry.state.usedValues ≠ [] →
      Honest solver ∧ GuardsReweight solver ∧
      ∃ choice, Viable solver call.evaluator choice ∧
        ∀ clause ∈ solver.clauses, clause.soft = false →
        clause.evaluate (chosen solver choice) = .satisfied

/-- What a call offers for a property: its staged state, or a restart of a cycle that has drawn
nothing. -/
structure Offer (states : List RandomState) (entry : Staged) : Prop where
  source : stageItem states entry.item = .ok entry ∨
    ∃ first, stageItem states entry.item = .ok first ∧ Restarted first entry ∧
      ∀ base, entry.item.draw = .exact base → first.state.usedValues = []
  nodup : entry.domain.Nodup

theorem Restarted.item_eq (h : Restarted entry entry') : entry'.item = entry.item := by
  cases h <;> rfl

theorem Restarting.map_item (h : Restarting s staged s' staged')
    (hl : staged'.length = staged.length) : staged'.map (·.item) = staged.map (·.item) := by
  refine ext_getElem (by simpa using hl) fun index hin hi' => ?_
  simp only [length_map] at hin hi'
  obtain ⟨-, entry, he, hr⟩ := h.restarted index _ (getElem?_eq_getElem hin)
  rw [List.getElem_map, List.getElem_map, hr.item_eq, (List.getElem?_eq_some_iff.mp he).2]

theorem solveCall_offer (h : solveCall call states = .ok (result, staged))
    (hs : result.status = .satisfied) :
    staged.map (·.item) = call.items ∧ ∀ (index : ℕ) (entry : Staged),
    staged[index]? = some entry →
      Unread call states entry.item.key → Solvable call states entry.item.key →
      Offer states entry ∧ ∃ value, result.values[index]? = some value ∧
      value ∈ entry.domain := by
  obtain ⟨⟨s, first⟩, hpr, h⟩ := bind_ok.mp h
  have hpr := mapError_ok.mp hpr
  have hp := prepare_prepared hpr
  obtain ⟨answer, ha, h⟩ := bind_ok.mp h
  split_ifs at h with hrt
  · obtain ⟨⟨s', a⟩, hrs, h⟩ := bind_ok.mp h
    obtain ⟨a', ha', h⟩ := bind_ok.mp h
    cases h
    have hsta : Restarting s first s [] :=
      ⟨hp.registered.wellFormed, rfl, Nat.zero_le _, by simp, fun index entry _ he =>
        hp.offered index entry he⟩
    obtain ⟨hr, hl⟩ := restartItems_spec (mapError_ok.mp hrs) (nil_append first).symm rfl hsta
    refine ⟨(hr.map_item hl).trans hp.items_eq, fun index entry he hu hso => ?_⟩
    obtain ⟨ho, staged, hst, hre⟩ := hr.restarted index entry he
    have hm := mem_of_getElem? hst
    have hit := hre.item_eq
    refine ⟨⟨.inr ⟨staged, hit ▸ hp.stages staged hm, hre, fun base hb => ?_⟩, ho.2.1⟩,
      solve_offered hr.wellFormed ?_ ha' hs ho⟩
    · by_contra hus
      obtain ⟨hh, hg, c, hv, hal⟩ :=
        hso s first hpr staged hm (by rw [hit]) base (hit ▸ hb) hus
      exact hg.not_missed hp.registered.wellFormed hh ha ⟨hv, hal, .inl hrt.1⟩
    · rw [hr.clauses]
      exact hu s first hpr index staged hst (by rw [hit])
  · cases h
    refine ⟨hp.items_eq, fun index entry he hu _ => ?_⟩
    have ho := hp.offered index entry he
    exact ⟨⟨.inl (hp.stages entry (mem_of_getElem? he)), ho.2.1⟩,
      solve_offered hp.registered.wellFormed (hu s staged hpr index entry he rfl) ha hs ho⟩

end Answers

section Commits

variable {e : List (Staged × Value)} {value : Value}

theorem map_zip_sublist {α β γ : Type} (f : α → γ) (left : List α) (right : List β) :
    ((left.zip right).map fun p => f p.1).Sublist (left.map f) := by
  induction left generalizing right with
  | nil => simp
  | cons first left ih =>
    cases right with
    | nil => simp
    | cons seed right => exact (ih right).cons_cons _

theorem commitItem_other (h : commitItem states (entry, value) = .ok states')
    (hk : entry.item.key ≠ key) : states'[key]? = states[key]? := by
  unfold commitItem at h
  dsimp only at h
  split at h
  · split_ifs at h
    cases h
    exact getElem?_set_ne hk
  · cases h
    exact getElem?_set_ne hk
  · cases h
    rfl

theorem commit_other (h : e.foldlM commitItem states = .ok states')
    (hk : ∀ p ∈ e, p.1.item.key ≠ key) : states'[key]? = states[key]? := by
  induction e generalizing states with
  | nil =>
    cases h
    rfl
  | cons p e ih =>
    obtain ⟨next, hn, h⟩ := foldlM_cons_ok.mp h
    rw [ih h fun o ho => hk o (by simp [ho]), commitItem_other hn (hk p (by simp))]

theorem commit_own (h : e.foldlM commitItem states = .ok states')
    (hn : (e.map (·.1.item.key)).Nodup) (hm : (entry, value) ∈ e) :
    ∃ b after, commitItem b (entry, value) = .ok after ∧
      b[entry.item.key]? = states[entry.item.key]? ∧
      states'[entry.item.key]? = after[entry.item.key]? := by
  induction e generalizing states with
  | nil => simp at hm
  | cons p e ih =>
    obtain ⟨next, hne, hr⟩ := foldlM_cons_ok.mp h
    obtain ⟨hf, hn⟩ := nodup_cons.mp hn
    rcases mem_cons.mp hm with rfl | hm
    · refine ⟨states, next, hne, rfl, commit_other hr fun o ho he => hf ?_⟩
      exact mem_map.mpr ⟨o, ho, he⟩
    · obtain ⟨b, after, hc, hb, ha⟩ := ih hr hn hm
      refine ⟨b, after, hc, hb.trans (commitItem_other hne fun he => hf ?_), ha⟩
      exact mem_map.mpr ⟨_, hm, he.symm⟩

end Commits

section Runs

variable {draw : Draw} {draws v : List Value} {state : RandomState}

/-- A property with cycles, and their domain. -/
def Draw.Randc : Draw → Prop
  | .exact _ => True
  | .wide width => width ≤ 64
  | _ => False

def Draw.cycleDomain : Draw → List Value
  | .exact base => base
  | .wide width => wideDomain width
  | _ => []

/-- The state of a property knows the current cycle of its draws. -/
def Tracks : Draw → RandomState → List Value → Prop
  | .exact base => TracksExact base
  | .wide width => TracksWide width
  | _ => fun _ _ => False

def drawnBy (call : Call) (key : ℕ) (draw : Draw) (values : List Value) : List Value :=
  match call.items.findIdx? fun item => item.key = key && item.draw = draw with
  | some index => [values.getD index []]
  | none => []

def KeepsDraw (call : Call) (key : ℕ) (draw : Draw) : Prop :=
  ∀ item ∈ call.items, item.key = key → item.draw = draw ∨
    ∃ value, item.draw = .fixed value

/-- Successful calls during which a property keeps its domain and is not constrained, with the
states after them and the draws of the property. -/
inductive Run (key : ℕ) (draw : Draw) (start : List RandomState) : List RandomState →
    List Value → Prop
  | start : Run key draw start start []
  | call {states states' : List RandomState} {draws values : List Value} {call : Call} :
      Run key draw start states draws → KeepsDraw call key draw → Unread call states key →
      Solvable call states key → randomize call states = .ok (some (states', values)) →
      Run key draw start states' (draws ++ drawnBy call key draw values)

variable {value : Value}

theorem commit_tracks (hra : draw.Randc) (hd : entry.item.draw = draw) (ho : Offer states entry)
    (hv : value ∈ entry.domain) {b after : List RandomState}
    (hc : commitItem b (entry, value) = .ok after)
    (hb : b[entry.item.key]? = states[entry.item.key]?)
    (hsta : states[entry.item.key]? = some state)
    (ht : Tracks draw state draws) :
    ∃ state', after[entry.item.key]? = some state' ∧ Tracks draw state' (draws ++ [value]) := by
  have hl : entry.item.key < b.length := by
    rw [hsta] at hb
    exact (List.getElem?_eq_some_iff.mp hb).1
  have hso : stateOf states entry.item = state := by rw [stateOf, getD_eq_getElem?_getD, hsta]; rfl
  obtain ⟨i, current, d⟩ := entry
  dsimp only at hd hv hl hso hc ⊢
  cases draw with
  | fixed | plain => exact hra.elim
  | exact base =>
    -- the offered state follows the draws, and its domain is the rest of the cycle
    obtain ⟨ht, hs, hdo⟩ : TracksExact base current draws ∧
        current.domainSignature = domainSignature base ∧ randcDomain base current = .ok d := by
      have hst {first : Staged} (h : stageItem states i = .ok first) :
          TracksExact base first.state draws ∧
            first.state.domainSignature = domainSignature base ∧
            randcDomain base first.state = .ok first.domain := by
        unfold stageItem at h
        rw [hd, hso] at h
        obtain ⟨staged, hst, h⟩ := bind_ok.mp h
        obtain ⟨offered, hof, h⟩ := bind_ok.mp h
        cases h
        obtain ⟨ht, hs⟩ := stageExact_tracks hst ht
        exact ⟨ht, hs, hof⟩
      rcases ho.source with hsr | ⟨first, hf, hr, hu⟩
      · exact hst hsr
      · obtain ⟨ht, hs, hdo⟩ := hst hf
        have hn := hu base hd
        cases hr with
        | exact hba hre =>
          cases hba.symm.trans hd
          exact ⟨ht.congr rfl hn.symm, hs, hre⟩
        | kept hot => exact absurd hd (hot base)
    unfold commitItem at hc
    simp only [hd] at hc
    split_ifs at hc
    cases hc
    exact ⟨_, getElem?_set_self hl, ht.draw hs hdo ho.nodup hv⟩
  | wide width =>
    obtain ⟨ht, hs, hp, hdo⟩ : TracksWide width current draws ∧
        current.domainSignature = wideSignature width ∧ current.position < 2 ^ width ∧
          d = [wideDrawn width current] := by
      have hst {first : Staged} (h : stageItem states i = .ok first) :
          TracksWide width first.state draws ∧
            first.state.domainSignature = wideSignature width ∧
            first.state.position < 2 ^ width ∧ first.domain = [wideDrawn width first.state] := by
        unfold stageItem at h
        rw [hd, hso] at h
        obtain ⟨staged, hst, h⟩ := bind_ok.mp h
        cases h
        obtain ⟨ht, hs, hp⟩ := stageWide_tracks hra hst ht
        exact ⟨ht, hs, hp, rfl⟩
      rcases ho.source with hsr | ⟨first, hf, hr, -⟩
      · exact hst hsr
      · cases hr with
        | exact hba => cases hba.symm.trans hd
        | kept => exact hst hf
    rw [hdo, mem_singleton] at hv
    unfold commitItem at hc
    simp only [hd] at hc
    cases hc
    exact ⟨_, getElem?_set_self hl, hv ▸ ht.draw hra hs hp⟩

theorem commitItem_fixed {f : Value} (hd : entry.item.draw = .fixed f)
    (h : commitItem states (entry, value) = .ok states') : states' = states := by
  unfold commitItem at h
  simp only [hd] at h
  cases h
  rfl

theorem drawnBy_of_index {i : Item} (hit : call.items[index]? = some i) (hd : i.draw = draw) :
    drawnBy call i.key draw v = [v.getD index []] := by
  obtain ⟨hin, rfl⟩ := List.getElem?_eq_some_iff.mp hit
  have hf : call.items.findIdx? (fun i => i.key = call.items[index].key && i.draw = draw) =
      some index := by
    rw [findIdx?_eq_some_iff_getElem]
    refine ⟨hin, by simp [hd], fun earlier he => ?_⟩
    have hn : call.items[earlier].key ≠ call.items[index].key := by
      intro heq
      have hs := inj_on_of_nodup_map call.keys_nodup (getElem_mem _) (getElem_mem _) heq
      exact he.ne ((call.keys_nodup.of_map _).getElem_inj_iff.mp hs)
    simp [hn]
  rw [drawnBy, hf]

theorem drawnBy_of_not (h : ∀ i ∈ call.items, i.key = key → i.draw ≠ draw) :
    drawnBy call key draw v = [] := by
  have hn : call.items.findIdx? (fun i => i.key = key && i.draw = draw) = none := by
    rw [findIdx?_eq_none_iff]
    intro i hit
    have := h i hit
    simpa using this
  rw [drawnBy, hn]

theorem randomize_tracks (hr : draw.Randc) (hke : KeepsDraw call key draw)
    (hu : Unread call states key)
    (hso : Solvable call states key) (h : randomize call states = .ok (some (states', v)))
    (hs : states[key]? = some state) (ht : Tracks draw state draws) :
    ∃ state', states'[key]? = some state' ∧
    Tracks draw state' (draws ++ drawnBy call key draw v) := by
  obtain ⟨⟨result, staged⟩, hsl, h⟩ := bind_ok.mp h
  dsimp only at h
  split_ifs at h with hst
  · obtain ⟨c, hc, h⟩ := bind_ok.mp h
    cases h
    have hc := mapError_ok.mp hc
    obtain ⟨hite, ho⟩ := solveCall_offer hsl hst
    have hky : ((staged.zip result.values).map (·.1.item.key)).Nodup := by
      refine Nodup.sublist ?_ call.keys_nodup
      rw [← hite, map_map]
      exact map_zip_sublist (fun entry : Staged => entry.item.key) staged result.values
    by_cases ha : ∃ entry ∈ staged, entry.item.key = key
    · obtain ⟨entry, he, rfl⟩ := ha
      obtain ⟨index, hin⟩ := getElem?_of_mem he
      have hit : call.items[index]? = some entry.item := by rw [← hite, getElem?_map, hin]; rfl
      obtain ⟨hof, value, hv, hm⟩ := ho index entry hin hu hso
      have hz : (entry, value) ∈ staged.zip result.values :=
        mem_of_getElem? (getElem?_zip_eq_some.mpr ⟨hin, hv⟩)
      obtain ⟨b, after, how, hb, haf⟩ := commit_own hc hky hz
      rw [haf]
      rcases hke entry.item (mem_of_getElem? hit) rfl with hd | ⟨f, hf⟩
      · rw [drawnBy_of_index hit hd, getD_eq_getElem?_getD, hv]
        exact commit_tracks hr hd hof hm how hb hs ht
      · have hn : ∀ i ∈ call.items, i.key = entry.item.key → i.draw ≠ draw := by
          intro i hm hk hd
          have heq : i = entry.item :=
            inj_on_of_nodup_map call.keys_nodup hm (mem_of_getElem? hit) hk
          rw [← hd, heq, hf] at hr
          exact hr
        rw [drawnBy_of_not hn, append_nil, commitItem_fixed hf how, hb]
        exact ⟨state, hs, ht⟩
    · have hn : ∀ i ∈ call.items, i.key = key → i.draw ≠ draw := by
        intro i hit hk
        rw [← hite] at hit
        obtain ⟨entry, he, rfl⟩ := mem_map.mp hit
        exact absurd ⟨entry, he, hk⟩ ha
      rw [drawnBy_of_not hn, append_nil,
        commit_other hc fun p hp heq => ha ⟨p.1, (of_mem_zip hp).1, heq⟩]
      exact ⟨state, hs, ht⟩
  · cases h

theorem tracks_fresh (hr : draw.Randc) (seed : BitVec 64) : Tracks draw (.fresh seed) [] := by
  cases draw with
  | fixed | plain => exact hr.elim
  | exact base => exact ⟨fun h => absurd rfl h, .inr rfl, by simp [RandomState.fresh], .start⟩
  | wide width =>
    refine ⟨.inr rfl, Nat.zero_le _, Nat.two_pow_pos 64, ?_⟩
    exact .start

theorem Run.tracks {start : List RandomState} {seed : BitVec 64} (hr : draw.Randc)
    (hf : start[key]? = some (.fresh seed)) (h : Run key draw start states draws) :
    ∃ state, states[key]? = some state ∧ Tracks draw state draws := by
  induction h with
  | start => exact ⟨_, hf, tracks_fresh hr seed⟩
  | call _ hk hu hs hc ih =>
    obtain ⟨state, hst, ht⟩ := ih
    exact randomize_tracks hr hk hu hs hc hst ht

theorem cycles_nil (d : List Value) : Cycles d [] := by
  refine ⟨fun k => by simp [block], fun k => by simp [block], fun k hk => ?_⟩
  have he : d = [] := by simpa using hk
  simp [block, he]

/-- The draws of a property from its first one on fall into complete cycles of its domain. -/
theorem randc_cycles {start : List RandomState} {seed : BitVec 64} (hrandc : draw.Randc)
    (hfresh : start[key]? = some (.fresh seed)) (h : Run key draw start states draws) :
    Cycles draw.cycleDomain draws := by
  obtain ⟨state, -, htracks⟩ := h.tracks hrandc hfresh
  cases draw with
  | fixed | plain => exact hrandc.elim
  | exact base =>
    by_cases hnone : draws = []
    · rw [hnone]
      exact cycles_nil _
    · exact htracks.drawn.cycles (htracks.nodup hnone)
  | wide width => exact htracks.drawn.cycles wideDomain_nodup

end Runs

def twoValues : List Value := [[.zero], [.one]]

def cycleLimits : Limits := ⟨8, 8, 64, 100, sixtyFour_lt⟩

def oneBit : Profile := ⟨.bitVector, 1, false, "bit", false⟩

def cycleCall (items : List Item) (configure : Solver → Except String Solver)
    (hkeys : (items.map (·.key)).Nodup)
    (hconfigured : ∀ solver solver', configure solver = .ok solver' →
      Configured solver solver') : Call :=
  ⟨cycleLimits, items, configure, graphEvaluator fun _ => some oneBit, fun _ => false,
    fun _ => false, 20, 0, hkeys, hconfigured⟩

def firstItem : Item := ⟨0, "p", oneBit, .exact twoValues⟩

def secondItem : Item := ⟨1, "q", oneBit, .exact twoValues⟩

def fourValues : List Value := [[.zero, .zero], [.one, .zero], [.zero, .one], [.one, .one]]

def limitClause : Clause :=
  predicateClause "q != 3" [1] (fun values => values ≠ [[.one, .one]]) false

def twoBits : Profile := ⟨.bitVector, 2, false, "bit", false⟩

/-- The constraint on the second property is met in every call of its cycle but the last. -/
def freeCall : Call :=
  cycleCall [firstItem, ⟨1, "q", twoBits, .exact fourValues⟩]
    (fun solver => addClause solver limitClause) (by decide) fun _ _ h => .addClause .start h

/-- Only the second property is constrained. -/
def constrainedCall : Call :=
  cycleCall [firstItem, secondItem]
    (fun solver =>
      addClause solver (predicateClause "q == 0" [1] (fun values => values = [[.zero]]) false))
    (by decide) fun _ _ h => .addClause .start h

def stateAfter (seed : BitVec 64) (cycle : ℕ) (used : List ℕ) : RandomState :=
  ⟨seed, domainSignature twoValues, cycle, used, 0⟩

def limitedAfter (used : List ℕ) : RandomState := ⟨0, domainSignature fourValues, 0, used, 0⟩

/-- The variables of a prepared call, those that its clauses read, its distributions and the used
places. -/
def summary (prepared : Solver × List Staged) :
    List Variable × List (List ℕ) × ℕ × List (List ℕ) :=
  (prepared.1.vars, prepared.1.clauses.map (·.vars), prepared.1.distributions.length,
    prepared.2.map (·.state.usedValues))

section
variable (hf : (prepare call states).map summary = .ok found)
include hf

theorem prepare_summary
    (h : prepare call states = .ok (s, staged)) : summary (s, staged) = found := by
  rw [h] at hf
  exact Except.ok.inj hf

theorem unread_of_summary
    (hr : ∀ index i, call.items[index]? = some i → i.key = key →
      ∀ ids ∈ found.2.1, index ∉ ids) :
    Unread call states key := by
  intro s staged h index entry he hk c hc
  have hit : call.items[index]? = some entry.item := by
    rw [← (prepare_prepared h).items_eq, getElem?_map, he]
    rfl
  refine hr index entry.item hit hk c.vars ?_
  rw [← prepare_summary hf h]
  exact mem_map_of_mem hc

theorem first_unread (hkeys : call.items.map (·.key) = [0, 1]) (hread : found.2.1 = [[1]]) :
    Unread call states 0 := by
  refine unread_of_summary hf fun index i hit hk ids hid hin => ?_
  rw [hread, mem_singleton] at hid
  rw [hid, mem_singleton] at hin
  have hkey : (call.items.map (·.key))[1]? = some i.key := by
    rw [getElem?_map, ← hin, hit]
    rfl
  rw [hkeys, hk] at hkey
  cases hkey

end

theorem addItem_clauses {registered registered' : Solver × List Staged} {i : Item}
    {base : List Value}
    (hd : i.draw = .exact base) (h : addItem states registered i = .ok registered') :
    registered'.1.clauses = registered.1.clauses := by
  obtain ⟨entry, -, h⟩ := bind_ok.mp h
  obtain ⟨added, hadded, h⟩ := bind_ok.mp h
  simp only [hd] at h
  cases h
  unfold addVariable at hadded
  split_ifs at hadded
  cases hadded
  rfl

theorem freeCall_clauses (h : prepare freeCall states = .ok (s, staged)) :
    s.clauses = [limitClause] := by
  obtain ⟨registered, hitems, h⟩ := bind_ok.mp h
  obtain ⟨configured, hconfigured, h⟩ := bind_ok.mp h
  cases h
  obtain ⟨first, hfirst, hitems⟩ := foldlM_cons_ok.mp hitems
  obtain ⟨second, hsecond, hitems⟩ := foldlM_cons_ok.mp hitems
  cases hitems
  have hbase : registered.1.clauses = [] :=
    (addItem_clauses rfl hsecond).trans (addItem_clauses rfl hfirst)
  have hadded : addClause registered.1 limitClause = .ok s := hconfigured
  unfold addClause at hadded
  split_ifs at hadded
  cases hadded
  simp [hbase]

theorem freeCall_keeps : KeepsDraw freeCall 0 (.exact twoValues) := by
  intro i hit hkey
  simp only [freeCall, cycleCall, mem_cons, not_mem_nil, or_false] at hit
  rcases hit with rfl | rfl
  · exact .inl rfl
  · cases hkey

theorem freeCall_first : randomize freeCall [.fresh 1, .fresh 0] =
      .ok (some ([stateAfter 1 0 [0], limitedAfter [0]], [[.zero], [.zero, .zero]])) ∧
    (prepare freeCall [.fresh 1, .fresh 0]).map summary =
      .ok ([⟨"p", oneBit, [[.zero], [.one]]⟩,
        ⟨"q", twoBits, [[.zero, .zero], [.zero, .one], [.one, .zero], [.one, .one]]⟩],
        [[1]], 0, [[], []]) := by
  decide +kernel

theorem freeCall_second : randomize freeCall [stateAfter 1 0 [0], limitedAfter [0]] =
      .ok (some ([stateAfter 1 0 [0, 1], limitedAfter [0, 2]], [[.one], [.zero, .one]])) ∧
    (prepare freeCall [stateAfter 1 0 [0], limitedAfter [0]]).map summary =
      .ok ([⟨"p", oneBit, [[.one]]⟩,
        ⟨"q", twoBits, [[.zero, .one], [.one, .zero], [.one, .one]]⟩],
        [[1]], 0, [[0], [0]]) := by
  decide +kernel

theorem freeCall_first_solvable : Solvable freeCall [.fresh 1, .fresh 0] 0 := by
  intro s staged h entry he _ _ _ hu
  have hm : entry.state.usedValues ∈ (summary (s, staged)).2.2.2 := mem_map_of_mem he
  rw [prepare_summary freeCall_first.2 h] at hm
  simp [hu] at hm

theorem freeCall_second_solvable : Solvable freeCall [stateAfter 1 0 [0], limitedAfter [0]] 0 := by
  intro s staged h _ _ _ _ _ _
  have hc := freeCall_clauses h
  have hfound := prepare_summary freeCall_second.2 h
  have hv : s.vars = [⟨"p", oneBit, [[.one]]⟩,
      ⟨"q", twoBits, [[.zero, .one], [.one, .zero], [.one, .one]]⟩] := congrArg (·.1) hfound
  have hd : s.distributions = [] := eq_nil_of_length_eq_zero (congrArg (·.2.2.1) hfound)
  have hguarded : ∀ id, guardedVariable s id = false := fun id => by simp [guardedVariable, hd]
  refine ⟨honest_of_predicates ?_, fun id hid => ?_, fun _ => 0, ⟨?_, ?_⟩, ?_⟩
  · intro c hin
    rw [hc, mem_singleton] at hin
    exact ⟨_, _, _, _, hin⟩
  · rw [hguarded] at hid
    cases hid
  · intro id hid
    rw [hv] at hid
    obtain rfl | rfl : id = 0 ∨ id = 1 := by simp at hid; omega
    all_goals simp [domainOf, hv]
  · intro id _
    simp [weighing, hd]
  · intro c hin _
    rw [hc, mem_singleton] at hin
    rw [hin]
    simp [limitClause, predicateClause, chosen, domainOf, hv]

/-- Two calls draw both values of the unconstrained property. -/
theorem freeCall_cycles : Cycles twoValues [[.zero], [.one]] := by
  have hone : Run 0 (.exact twoValues) [.fresh 1, .fresh 0] [stateAfter 1 0 [0], limitedAfter [0]]
      [[.zero]] :=
    .call .start freeCall_keeps (first_unread freeCall_first.2 rfl rfl)
      freeCall_first_solvable freeCall_first.1
  have htwo : Run 0 (.exact twoValues) [.fresh 1, .fresh 0]
      [stateAfter 1 0 [0, 1], limitedAfter [0, 2]] [[.zero], [.one]] :=
    .call hone freeCall_keeps (first_unread freeCall_second.2 rfl rfl)
      freeCall_second_solvable freeCall_second.1
  have hrandc : (Draw.exact twoValues).Randc := trivial
  exact randc_cycles hrandc rfl htwo

theorem constrainedCall_first : randomize constrainedCall [.fresh 1, .fresh 0] =
      .ok (some ([stateAfter 1 0 [0], stateAfter 0 0 [0]], [[.zero], [.zero]])) ∧
    (prepare constrainedCall [.fresh 1, .fresh 0]).map summary =
      .ok
      ([⟨"p", oneBit, [[.zero], [.one]]⟩, ⟨"q", oneBit, [[.zero], [.one]]⟩], [[1]], 0,
        [[], []]) := by
  decide +kernel

theorem constrainedCall_second :
    randomize constrainedCall [stateAfter 1 0 [0], stateAfter 0 0 [0]] =
      .ok (some ([stateAfter 1 1 [0], stateAfter 0 1 [0]], [[.zero], [.zero]])) ∧
    (prepare constrainedCall [stateAfter 1 0 [0], stateAfter 0 0 [0]]).map summary =
      .ok ([⟨"p", oneBit, [[.one]]⟩, ⟨"q", oneBit, [[.one]]⟩], [[1]], 0, [[0], [0]]) := by
  decide +kernel

/-- The second call restarts the cycle of the unconstrained property with that of the other one, and
its first value is drawn again. -/
theorem constrainedCall_breaks_cycle : Unread constrainedCall [.fresh 1, .fresh 0] 0 ∧
    randomize constrainedCall [.fresh 1, .fresh 0] =
      .ok (some ([stateAfter 1 0 [0], stateAfter 0 0 [0]], [[.zero], [.zero]])) ∧
    Unread constrainedCall [stateAfter 1 0 [0], stateAfter 0 0 [0]] 0 ∧
    randomize constrainedCall [stateAfter 1 0 [0], stateAfter 0 0 [0]] =
      .ok (some ([stateAfter 1 1 [0], stateAfter 0 1 [0]], [[.zero], [.zero]])) ∧
    ¬ Cycles twoValues [[.zero], [.zero]] := by
  refine ⟨first_unread constrainedCall_first.2 rfl rfl, constrainedCall_first.1,
    first_unread constrainedCall_second.2 rfl rfl, constrainedCall_second.1, fun h => ?_⟩
  have hnodup := h.nodup 0
  revert hnodup
  decide

end FsimRuntime.Randomize

import FsimRuntime.ConstraintProblem

/-!
# The order of the variables

`search_order` sorts the variables topologically by the solve-before pairs.
`solve` then moves variables with one candidate to the front, guarded variables
behind the variables of their guards, shared variables of a sum before its
other variables and sampled variables behind the others of an equality. Every
step permutes the variables.
-/

namespace FsimRuntime.Constraint
open List Function

open Simir (Value)

section SearchOrder

variable (solver : Solver)

def identityOf (id : ℕ) : String := (solver.vars[id]?.map (·.canonicalIdentity)).getD ""

def identityLe (left right : ℕ) : Bool :=
  if identityOf solver left ≠ identityOf solver right then
    identityOf solver left < identityOf solver right
  else left ≤ right

def sortReady (ready : List ℕ) : List ℕ := ready.insertionSort fun a b => identityLe solver a b

def releaseLater (state : (ℕ → ℕ) × List ℕ) (later : ℕ) : (ℕ → ℕ) × List ℕ :=
  let count := state.1 later - 1
  (update state.1 later count,
    if count = 0 then sortReady solver (state.2 ++ [later]) else state.2)

def laterOf (selected : ℕ) : List ℕ := (solver.solveBefore.filter (·.1 = selected)).map (·.2)

def drainReady : ℕ → (ℕ → ℕ) → List ℕ → List ℕ → List ℕ
  | 0, _, _, result => result
  | _ + 1, _, [], result => result
  | fuel + 1, indegree, selected :: ready, result =>
    let (indegree, ready) := (laterOf solver selected).foldl (releaseLater solver) (indegree, ready)
    drainReady fuel indegree ready (result ++ [selected])

def searchOrder : Except String (List ℕ) :=
  let count := solver.vars.length
  let indegree := fun id => solver.solveBefore.countP (·.2 = id)
  let ready := sortReady solver ((List.range count).filter fun id => indegree id = 0)
  let result := drainReady solver (count + 1) indegree ready []
  if result.length ≠ count then .error "constraint solve-before graph is cyclic" else .ok result

end SearchOrder

def moveTo (order : List ℕ) (source target : ℕ) : List ℕ :=
  match order[source]? with
  | none => order
  | some id => (order.eraseIdx source).insertIdx target id

def orderSingle (candidates : ℕ → List ℕ) (order : List ℕ) : List ℕ :=
  order.filter (fun id => (candidates id).length = 1)
    ++ order.filter fun id => ¬ (candidates id).length = 1

def readVariables (expression : Expression) : List ℕ :=
  (expression.nodes.filter (·.operation = .variableNode)).map (·.variableId)

/-- A guarded variable follows the variables of its guard. -/
def followGuard (order : List ℕ) (distribution : RetainedDistribution) : List ℕ :=
  match distribution.guard with
  | none => order
  | some guard =>
    let index := order.idxOf distribution.variableId
    let last := ((readVariables guard).map order.idxOf).foldl max 0
    if index < order.length ∧ index < last then moveTo order index last
    else order

variable (solver : Solver)

def guardedVariable (id : ℕ) : Bool :=
  solver.distributions.any fun distribution =>
    distribution.guard.isSome && distribution.variableId = id

def orderedVariable (id : ℕ) : Bool :=
  solver.solveBefore.any fun (earlier, later) => earlier = id || later = id

def emptyNode : Node := ⟨.constant, ⟨.bitVector, 0, false, "", false⟩, 0, [], []⟩

def Expression.node (expression : Expression) (id : ℕ) : Node :=
  expression.nodes.getD id emptyNode

def sumReads (count : ℕ) (expression : Expression) : List ℕ :=
  ((List.range expression.nodes.length).reverse.foldl (fun (state : List ℕ × List ℕ) id =>
    if id ∈ state.1 ∨ (expression.node id).operation = .add then
      (expression.node id).operands.foldl (fun state operand =>
        if operand < expression.nodes.length then
          (operand :: state.1,
            if (expression.node operand).operation = .variableNode ∧
              (expression.node operand).variableId < count
            then (expression.node operand).variableId :: state.2 else state.2)
        else state) state
    else state) ([], [])).2

structure Promotion where
  reads : ℕ
  single : List ℕ
  shared : ℕ

def promotionsOf (clause : Clause) : List Promotion :=
  match clause.expression with
  | none => []
  | some expression =>
    if clause.soft ∨ clause.vars.length < 3 ∨
      expression.nodes.all (·.operation ≠ .add) then []
    else
      let reads := sumReads solver.vars.length expression
      (clause.vars.filter fun id => 2 ≤ reads.count id && !orderedVariable solver id
          && !guardedVariable solver id).map fun id =>
        ⟨reads.count id, clause.vars.filter fun other =>
          reads.count other = 1 && !orderedVariable solver other, id⟩

/-- A shared variable comes before the variables that its clause reads once. -/
def promote (state : List ℕ × List ℕ) (promotion : Promotion) : List ℕ × List ℕ :=
  let (order, promoted) := state
  if promotion.shared ∈ promoted then state
  else
    let position := order.idxOf promotion.shared
    let first := (promotion.single.map order.idxOf).foldl min position
    (if position < order.length ∧ first < position then moveTo order position first else order,
      promotion.shared :: promoted)

def orderPromoted (order : List ℕ) : List ℕ :=
  let promotions := solver.clauses.flatMap (promotionsOf solver)
  ((promotions.insertionSort fun a b => b.reads ≤ a.reads).foldl promote (order, [])).1

def avalWord (value : Value) : ℕ := BinaryNumeral.number (value.map Logic4.aval)

def domainValue (id index : ℕ) : Value :=
  ((solver.vars[id]?.map (·.domain)).getD []).getD index []

def widthOf (id : ℕ) : ℕ := (solver.vars[id]?.map (·.profile.width)).getD 0

def wordSpan (words : List ℕ) : ℕ := words.foldl max 0 - words.foldl min (2 ^ 64 - 1)

def sampled (candidates : ℕ → List ℕ) (id : ℕ) : Bool :=
  let width := widthOf solver id
  let words := (candidates id).map fun index => avalWord (domainValue solver id index)
  2 ≤ (candidates id).length && width ≠ 0 && width ≤ 64
    && (candidates id).length ≤
      min (wordSpan words) (wordSpan (words.map (· ^^^ 2 ^ (width - 1))))

/-- A sampled variable of a hard equality follows the other variables of the clause. -/
def followEquality (candidates : ℕ → List ℕ) (order : List ℕ) (clause : Clause) :
    List ℕ :=
  match clause.expression with
  | none => order
  | some expression =>
    if clause.soft ∨ expression.nodes.length ≤ expression.root
        ∨ (expression.node expression.root).operation ≠ .equal then order
    else
      match clause.vars.filter (sampled solver candidates) with
      | [wide] =>
        if clause.vars.all (sampled solver candidates) ∨ orderedVariable solver wide
            ∨ guardedVariable solver wide then order
        else
          let index := order.idxOf wide
          let last := ((clause.vars.filter (· ≠ wide)).map order.idxOf).foldl max 0
          if index < order.length ∧ index < last then moveTo order index last else order
      | _ => order

def foreignGuard : Bool :=
  solver.distributions.any fun distribution =>
    distribution.guard.any fun guard => (readVariables guard).any fun id =>
      solver.vars.length ≤ id

/-- The order in which the search assigns the variables. The place behind a variable that is not
registered does not exist. -/
def variableOrder (candidates : ℕ → List ℕ) : Except String (List ℕ) :=
  searchOrder solver >>= fun order =>
    if foreignGuard solver then .error "a guard reads a variable that is not registered" else
    let order := solver.distributions.foldl followGuard (orderSingle candidates order)
    .ok (solver.clauses.foldl (followEquality solver candidates) (orderPromoted solver order))

section Permutations

variable {solver : Solver} {order : List ℕ}

theorem sortReady_perm (r : List ℕ) : (sortReady solver r).Perm r :=
  perm_insertionSort ..

def openPairs (solver : Solver) (result : List ℕ) : List (ℕ × ℕ) :=
  solver.solveBefore.filter fun pair => pair.1 ∉ result

structure Sorted (solver : Solver) (pairs : List (ℕ × ℕ)) (indegree : ℕ → ℕ)
    (taken : List ℕ) : Prop where
  counts : ∀ id, indegree id = pairs.countP (·.2 = id)
  nodup : taken.Nodup
  free : ∀ id ∈ taken, indegree id = 0
  inside : ∀ id ∈ taken, id < solver.vars.length

variable {pairs : List (ℕ × ℕ)} {i : ℕ → ℕ} {r result o' : List ℕ} {s : ℕ}
  {c : ℕ → List ℕ} {clause : Clause}

theorem Sorted.perm {p' : List (ℕ × ℕ)} {taken t' : List ℕ} (h : Sorted solver pairs i taken)
    (hp : pairs.Perm p') (ht : taken.Perm t') : Sorted solver p' i t' :=
  ⟨fun id => (h.counts id).trans (hp.countP_eq _), ht.nodup_iff.mp h.nodup,
    fun id hid => h.free id (ht.mem_iff.mpr hid), fun id hid => h.inside id (ht.mem_iff.mpr hid)⟩

theorem Sorted.release {p : ℕ × ℕ}
    (h : Sorted solver (p :: pairs) i (result ++ r)) (hl : p.2 < solver.vars.length) :
    Sorted solver pairs (releaseLater solver (i, r) p.2).1
      (result ++ (releaseLater solver (i, r) p.2).2) := by
  have hco := h.counts p.2
  simp only [countP_cons, decide_true, if_true] at hco
  have ho : p.2 ∉ result ++ r := fun hm => by
    have := h.free p.2 hm
    omega
  have hc (id : ℕ) : update i p.2 (i p.2 - 1) id =
      pairs.countP (·.2 = id) := by
    by_cases hid : id = p.2
    · subst hid
      rw [update_self]
      omega
    · have := h.counts id
      rw [update_of_ne hid]
      simp only [countP_cons, decide_eq_true_eq, if_neg (Ne.symm hid)] at this
      omega
  have hf (id : ℕ) (hm : id ∈ result ++ r) :
      update i p.2 (i p.2 - 1) id = 0 := by
    have hn : id ≠ p.2 := fun he => ho (he ▸ hm)
    rw [update_of_ne hn]
    exact h.free id hm
  unfold releaseLater
  dsimp only
  by_cases hz : i p.2 - 1 = 0
  · rw [if_pos hz]
    have hp : (result ++ sortReady solver (r ++ [p.2])).Perm (p.2 :: (result ++ r)) := by
      refine ((sortReady_perm _).append_left result).trans ?_
      rw [← append_assoc]
      exact perm_append_singleton _ _
    refine Sorted.perm ⟨hc, nodup_cons.mpr ⟨ho, h.nodup⟩, ?_, ?_⟩ (List.Perm.refl _) hp.symm
    · intro id hid
      rcases mem_cons.mp hid with rfl | hid
      · rw [update_self]
        exact hz
      · exact hf id hid
    · intro id hid
      rcases mem_cons.mp hid with rfl | hid
      · exact hl
      · exact h.inside id hid
  · rw [if_neg hz]
    exact ⟨hc, h.nodup, hf, h.inside⟩

theorem Sorted.releaseAll : ∀ {r : List (ℕ × ℕ)} {i : ℕ → ℕ} {released : List ℕ},
      Sorted solver (r ++ pairs) i (result ++ released) →
      (∀ pair ∈ r, pair.2 < solver.vars.length) →
      Sorted solver pairs ((r.map (·.2)).foldl (releaseLater solver) (i, released)).1
        (result ++ ((r.map (·.2)).foldl (releaseLater solver) (i, released)).2)
  | [], _, _, h, _ => h
  | pair :: r, _, _, h, hin => by
    rw [map_cons]
    exact Sorted.releaseAll (h.release (hin pair (by simp))) fun o ho => hin o (by simp [ho])

theorem openPairs_perm (h : s ∉ result) : (openPairs solver result).Perm
      (solver.solveBefore.filter (·.1 = s) ++ openPairs solver (result ++ [s])) := by
  refine (filter_append_perm (fun p => p.1 = s) _).symm.trans (List.Perm.of_eq ?_)
  simp only [openPairs, filter_filter]
  congr 1
  · refine filter_congr fun p _ => ?_
    by_cases hp : p.1 = s
    · simp [hp, h]
    · simp [hp]
  · simp [and_comm]

structure Draining (solver : Solver) (indegree : ℕ → ℕ) (ready result : List ℕ) : Prop
    extends Sorted solver (openPairs solver result) indegree (result ++ ready) where
  complete : ∀ id < solver.vars.length, indegree id = 0 → id ∈ result ++ ready
  before : ∀ pair ∈ solver.solveBefore, pair.2 ∈ result → [pair.1, pair.2].Sublist result

theorem complete_release {later : ℕ}
    (h : ∀ id < solver.vars.length, i id = 0 → id ∈ result ++ r) :
    ∀ id < solver.vars.length, (releaseLater solver (i, r) later).1 id = 0 →
      id ∈ result ++ (releaseLater solver (i, r) later).2 := by
  intro id hid hz
  simp only [releaseLater] at hz ⊢
  by_cases hl : id = later
  · subst hl
    rw [update_self] at hz
    rw [if_pos hz, mem_append, (sortReady_perm _).mem_iff]
    simp
  · rw [update_of_ne hl] at hz
    have := h id hid hz
    split_ifs
    · rw [mem_append, (sortReady_perm _).mem_iff, mem_append]
      exact (mem_append.mp this).imp_right .inl
    · exact this

section
variable (hp : ∀ p ∈ solver.solveBefore, p.2 < solver.vars.length)
include hp

theorem Draining.step (h : Draining solver i (s :: r) result) :
    Draining solver ((laterOf solver s).foldl (releaseLater solver) (i, r)).1
      ((laterOf solver s).foldl (releaseLater solver) (i, r)).2 (result ++ [s]) := by
  have ho : s ∉ result := by
    have := nodup_append.mp h.nodup
    exact fun hm => this.2.2 s hm s (by simp) rfl
  have ht : (result ++ s :: r).Perm (result ++ [s] ++ r) := by simp
  refine ⟨Sorted.releaseAll (h.toSorted.perm (openPairs_perm ho) ht) fun p hpa =>
    hp p (mem_of_mem_filter hpa), ?_, fun p hpa hm => ?_⟩
  · exact foldlRecOn (laterOf solver s) _ (motive := fun state : (ℕ → ℕ) × List ℕ =>
      ∀ id < solver.vars.length, state.1 id = 0 → id ∈ result ++ [s] ++ state.2)
      (fun id hid hz => ht.mem_iff.mp (h.complete id hid hz)) fun _ hs _ _ => complete_release hs
  · rcases mem_append.mp hm with hm | hm
    · exact (h.before p hpa hm).trans (sublist_append_left ..)
    · -- a ready variable is in no open pair
      have hs := mem_singleton.mp hm
      have hz := (h.counts p.2).symm.trans (h.free p.2 (by simp [hs]))
      have he : p.1 ∈ result := by
        by_contra hn
        have := countP_eq_zero.mp hz p (mem_filter.mpr ⟨hpa, decide_eq_true hn⟩)
        simp at this
      exact (singleton_sublist.mpr he).append (hs ▸ List.Sublist.refl _)

theorem Draining.drain {f : ℕ} (h : Draining solver i r result)
    (hf : solver.vars.length < f + result.length) :
    ∃ i', Draining solver i' [] (drainReady solver f i r result) := by
  induction f generalizing i r result with
  | zero =>
    have hn := (nodup_append.mp h.nodup).1
    have := (hn.subperm fun id hid => mem_range.mpr (h.inside id (mem_append_left _ hid))).length_le
    rw [length_range] at this
    omega
  | succ f ih =>
    cases r with
    | nil => exact ⟨i, h⟩
    | cons s r => exact ih (h.step hp) (by simp; omega)

theorem searchOrder_drained : ∃ i order, Draining solver i [] order ∧ searchOrder solver =
      if order.length ≠ solver.vars.length then .error "constraint solve-before graph is cyclic"
      else .ok order := by
  have hs : Draining solver (fun id => solver.solveBefore.countP (·.2 = id)) (sortReady solver
      ((range solver.vars.length).filter fun id => solver.solveBefore.countP (·.2 = id) = 0))
        [] := by
    refine ⟨Sorted.perm ⟨fun id => by simp [openPairs], nodup_range.filter _, fun id hid => ?_,
      fun id hid => ?_⟩ (List.Perm.refl _) (sortReady_perm _).symm, fun id hid hz =>
        ?_, by simp⟩
    · simpa using (mem_filter.mp hid).2
    · exact mem_range.mp (mem_filter.mp hid).1
    · exact (sortReady_perm _).mem_iff.mpr
        (mem_filter.mpr ⟨mem_range.mpr hid, decide_eq_true hz⟩)
  obtain ⟨i, hd⟩ := hs.drain hp (f := solver.vars.length + 1) (by simp)
  exact ⟨i, _, hd, rfl⟩

end

theorem Draining.perm (h : Draining solver i [] order)
    (hl : solver.vars.length ≤ order.length) : order.Perm (range solver.vars.length) := by
  have hn := append_nil order ▸ h.nodup
  refine (hn.subperm fun id hid =>
    mem_range.mpr (h.inside id (by simpa using hid))).perm_of_length_le ?_
  rwa [length_range]

theorem searchOrder_perm (hp : ∀ p ∈ solver.solveBefore, p.2 < solver.vars.length)
    (h : searchOrder solver = .ok order) : order.Perm (range solver.vars.length) ∧
      ∀ p ∈ solver.solveBefore, [p.1, p.2].Sublist order := by
  obtain ⟨i, result, hd, hs⟩ := searchOrder_drained hp
  rw [hs] at h
  split_ifs at h with hl
  cases h
  have hpe := hd.perm (not_not.mp hl).ge
  exact ⟨hpe, fun p hpa => hd.before p hpa (hpe.mem_iff.mpr (mem_range.mpr (hp p hpa)))⟩

theorem moveTo_perm {target : ℕ} (h : target < order.length) :
    (moveTo order s target).Perm order := by
  unfold moveTo
  cases hid : order[s]? with
  | none => exact List.Perm.refl _
  | some id =>
    obtain ⟨hlt, hg⟩ := List.getElem?_eq_some_iff.mp hid
    have hl : target ≤ (order.eraseIdx s).length := by
      rw [length_eraseIdx_of_lt hlt]
      omega
    refine (perm_insertIdx id _ hl).trans ?_
    rw [← hg]
    exact getElem_cons_eraseIdx_perm hlt

theorem orderSingle_perm : (orderSingle c order).Perm order := by
  have := filter_append_perm (fun id => decide ((c id).length = 1)) order
  simpa [orderSingle] using this

theorem foldl_max_lt {p : List ℕ} {b start : ℕ} (hs : start < b)
    (h : ∀ place ∈ p, place < b) : p.foldl max start < b := by
  induction p generalizing start with
  | nil => exact hs
  | cons place p ih =>
    exact ih (max_lt hs (h place (by simp))) fun o ho => h o (by simp [ho])

/-- One step of the passes after `search_order`: a variable without a pair goes anywhere, a guarded
one towards the end. -/
inductive Moved (solver : Solver) (order : List ℕ) : List ℕ → Prop
  | stays : Moved solver order order
  | moves {id target} : order.idxOf id < order.length → target < order.length →
      (orderedVariable solver id = false ∨ guardedVariable solver id = true ∧
        order.idxOf id ≤ target) →
      Moved solver order (moveTo order (order.idxOf id) target)

theorem Moved.perm (h : Moved solver order o') : o'.Perm order := by
  cases h with
  | stays => exact List.Perm.refl _
  | moves _ ht => exact moveTo_perm ht

theorem moveBehind_moved (hpe : order.Perm (range solver.vars.length)) {ids : List ℕ} {id : ℕ}
    (h : ∀ o ∈ ids, o < solver.vars.length)
    (ho : orderedVariable solver id = false ∨ guardedVariable solver id = true) :
    Moved solver order
      (if order.idxOf id < order.length ∧ order.idxOf id < (ids.map order.idxOf).foldl max 0
      then moveTo order (order.idxOf id) ((ids.map order.idxOf).foldl max 0) else order) := by
  split_ifs with hm
  · refine .moves hm.1 (foldl_max_lt (by omega) fun place hp => ?_)
      (ho.imp_right fun hg => ⟨hg, hm.2.le⟩)
    obtain ⟨o, hid, rfl⟩ := mem_map.mp hp
    exact idxOf_lt_length_iff.mpr (hpe.mem_iff.mpr (mem_range.mpr (h o hid)))
  · exact .stays

theorem followGuard_moved (hp : order.Perm (range solver.vars.length))
    {d : RetainedDistribution} (hd : d ∈ solver.distributions)
    (h : ∀ g ∈ d.guard, ∀ id ∈ readVariables g, id < solver.vars.length) :
    Moved solver order (followGuard order d) := by
  unfold followGuard
  cases hg : d.guard with
  | none => exact .stays
  | some g => exact moveBehind_moved hp (h g hg) (.inr (any_eq_true.mpr ⟨d, hd, by simp [hg]⟩))

theorem promote_moved {promoted : List ℕ} {p : Promotion}
    (hp : p ∈ promotionsOf solver clause) :
    Moved solver order (promote (order, promoted) p).1 := by
  have ho : orderedVariable solver p.shared = false := by
    unfold promotionsOf at hp
    split at hp
    · cases hp
    · split_ifs at hp
      · cases hp
      · obtain ⟨id, hid, rfl⟩ := mem_map.mp hp
        have := (mem_filter.mp hid).2
        simp only [Bool.and_eq_true, Bool.not_eq_true'] at this
        exact this.1.2
  unfold promote
  dsimp only
  split_ifs with hd hm
  · exact .stays
  · exact .moves hm.1 (hm.2.trans hm.1) (.inl ho)
  · exact .stays

theorem followEquality_moved (hp : order.Perm (range solver.vars.length))
    (h : ∀ id ∈ clause.vars, id < solver.vars.length) :
    Moved solver order (followEquality solver c order clause) := by
  unfold followEquality
  split
  · exact .stays
  · split_ifs
    · exact .stays
    · split
      · split_ifs with hs
        · exact .stays
        · simp only [not_or, Bool.not_eq_true] at hs
          exact moveBehind_moved hp (fun id hid => h id (mem_of_mem_filter hid)) (.inl hs.2.1)
      · exact .stays

theorem moved_perm (h : Relation.ReflTransGen (Moved solver) order o') : o'.Perm order := by
  induction h with
  | refl => exact List.Perm.refl _
  | tail _ hm ih => exact hm.perm.trans ih

theorem foldl_moved {α β : Type*} (view : β → List ℕ) {step : β → α → β}
    {items : List α} {s : β}
    (h : ∀ s, (view s).Perm (range solver.vars.length) → ∀ i ∈ items,
      Moved solver (view s) (view (step s i))) (hp : order.Perm (range solver.vars.length))
    (hs : Relation.ReflTransGen (Moved solver) order (view s)) :
    Relation.ReflTransGen (Moved solver) order (view (items.foldl step s)) :=
  foldlRecOn items step (motive := fun s => Relation.ReflTransGen (Moved solver) order (view s)) hs
    fun s hs i hi => hs.tail (h s ((moved_perm hs).trans hp) i hi)

section
variable (hpa : ∀ p ∈ solver.solveBefore, p.2 < solver.vars.length)
  (hc : ∀ clause ∈ solver.clauses, ∀ id ∈ clause.vars, id < solver.vars.length)
  (h : variableOrder solver c = .ok order)
include hpa hc h

theorem variableOrder_moved : ∃ start, searchOrder solver = .ok start ∧
      Relation.ReflTransGen (Moved solver) (orderSingle c start) order := by
  obtain ⟨start, hst, h⟩ := bind_ok.mp h
  split_ifs at h with hf
  cases h
  have hgu : ∀ d ∈ solver.distributions, ∀ g ∈ d.guard,
      ∀ id ∈ readVariables g, id < solver.vars.length := by
    intro d hd g hgr id hid
    by_contra hn
    refine hf (any_eq_true.mpr ⟨d, hd, ?_⟩)
    rw [hgr]
    exact any_eq_true.mpr ⟨id, hid, by simpa using hn⟩
  have hs : (orderSingle c start).Perm (range solver.vars.length) :=
    orderSingle_perm.trans (searchOrder_perm hpa hst).1
  have hg := foldl_moved id (fun o hp d hd => followGuard_moved hp hd (hgu d hd)) hs .refl
  refine ⟨start, hst,
    foldl_moved id (fun o hp clause hcl => followEquality_moved hp (hc clause hcl)) hs ?_⟩
  refine foldl_moved Prod.fst (fun s _ p hp => ?_) hs hg
  obtain ⟨clause, -, hcl⟩ := mem_flatMap.mp ((perm_insertionSort _ _).mem_iff.mp hp)
  exact promote_moved hcl

theorem variableOrder_perm : order.Perm (range solver.vars.length) := by
  obtain ⟨start, hst, hm⟩ := variableOrder_moved hpa hc h
  exact (moved_perm hm).trans (orderSingle_perm.trans (searchOrder_perm hpa hst).1)

end

end Permutations

end FsimRuntime.Constraint

import Mathlib

/-!
# A loop over the job threads

`parallel_workers` and `parallel_for` of `parallel_for.hpp`. A body that
depends on its index only is the exception that it throws there, if any. One
step of a worker is its `fetch_add` or the run of the chunk it has taken;
calls of different workers write different states, so their order is not kept.
-/

namespace FsimRuntime.Parallel
open List Function Nat

variable {ε : Type} {n : ℕ}

def parallelWorkers (jobs count grain : ℕ) : ℕ := max 1 (min jobs (count / max grain 1))

/-- The calls that a loop over these indices makes, and what it throws. -/
def serialLoop (body : ℕ → Option ε) : List ℕ → List ℕ × Option ε
  | [] => ([], none)
  | index :: rest =>
    match body index with
    | some exception => ([index], some exception)
    | none => (index :: (serialLoop body rest).1, (serialLoop body rest).2)

structure Job (ε : Type) where
  body : ℕ → Option ε
  count : ℕ
  size : ℕ
  chunks : ℕ

def chunkSize (count workers : ℕ) : ℕ := max 1 (count / (workers * 8))

/-- The sum wraps around in `std::size_t`. -/
def chunkCount (count size : ℕ) : ℕ := (count + size - 1) % 2 ^ 64 / size

def Job.make (jobs count grain : ℕ) (body : ℕ → Option ε) : Job ε :=
  let size := chunkSize count (parallelWorkers jobs count grain)
  ⟨body, count, size, chunkCount count size⟩

def Job.indices (job : Job ε) (chunk : ℕ) : List ℕ :=
  range' (chunk * job.size) (min job.count ((chunk + 1) * job.size) - chunk * job.size)

inductive Worker
  | claiming
  | running (chunk : ℕ)
  | finished
  deriving DecidableEq, Repr

structure State (n : ℕ) (ε : Type) where
  next : ℕ
  worker : Fin n → Worker
  calls : List ℕ
  failures : ℕ → Option ε

def State.start : State n ε := ⟨0, fun _ => .claiming, [], fun _ => none⟩

variable (job : Job ε)

def step (s : State n ε) (w : Fin n) : State n ε :=
  match s.worker w with
  | .claiming =>
    { s with
      next := s.next + 1
      worker := update s.worker w (if s.next < job.chunks then .running s.next else .finished) }
  | .running chunk =>
    let (calls, thrown) := serialLoop job.body (job.indices chunk)
    { s with
      worker := update s.worker w .claiming
      calls := s.calls ++ calls
      failures := if thrown.isSome then update s.failures chunk thrown else s.failures }
  | .finished => s

def rethrown (s : State n ε) : Option ε := ((range job.chunks).map s.failures).findSome? id

/-- The calls that `parallel_for` makes and what it throws, when its workers take their steps in
the order of some schedule. -/
def Returns (jobs count grain : ℕ) (body : ℕ → Option ε) (calls : List ℕ)
    (thrown : Option ε) : Prop :=
  if parallelWorkers jobs count grain ≤ 1 then
    (calls, thrown) = serialLoop body (range count)
  else
    let job := Job.make jobs count grain body
    ∃ schedule : List (Fin (parallelWorkers jobs count grain)),
      let s := schedule.foldl (step job) .start
      (∀ w, s.worker w = .finished) ∧ calls = s.calls ∧ thrown = rethrown job s

/-- The workers cannot go on forever. -/
def Ends (n : ℕ) : Prop :=
  WellFounded fun t s : State n ε => ∃ w, s.worker w ≠ .finished ∧ t = step job s w

/-- No index is called twice, every one is called if no call throws, and what is thrown is what the
least index throws that throws at all. -/
structure Exact (body : ℕ → Option ε) (indices calls : List ℕ)
    (thrown : Option ε) : Prop where
  once : calls.Subperm indices
  all : (∀ i ∈ indices, body i = none) → calls.Perm indices
  least : thrown = indices.findSome? body

section Chunks

variable {body : ℕ → Option ε} {job}

theorem exact_serialLoop (body : ℕ → Option ε) (indices : List ℕ) :
    Exact body indices (serialLoop body indices).1 (serialLoop body indices).2 := by
  induction indices with
  | nil => exact ⟨.refl _, fun _ => .nil, rfl⟩
  | cons index rest ih =>
    cases hb : body index with
    | some e =>
      simp only [serialLoop, hb]
      exact ⟨(subperm_cons index).mpr nil_subperm, fun h => by simp [hb] at h, by simp [hb]⟩
    | none =>
      simp only [serialLoop, hb]
      refine ⟨(subperm_cons index).mpr ih.once, fun h => ?_, by simp [hb, ih.least]⟩
      exact (ih.all fun i hi => h i (mem_cons_of_mem _ hi)).cons index

/-- Each of two loops gives up its own rest only. -/
theorem Exact.append {a b c d : List ℕ} {e f : Option ε} (h : Exact body a c e)
    (hb : Exact body b d f) : Exact body (a ++ b) (c ++ d) (e.or f) := by
  refine ⟨h.once.append hb.once, fun hn => ?_, ?_⟩
  · exact (h.all fun i hi => hn i (mem_append_left _ hi)).append
      (hb.all fun i hi => hn i (mem_append_right _ hi))
  · rw [findSome?_append, h.least, hb.least]

theorem range_append_indices (k : ℕ) : range (min job.count ((k + 1) * job.size)) =
    range (min job.count (k * job.size)) ++ job.indices k := by
  rw [Job.indices, succ_mul]
  by_cases hk : k * job.size ≤ job.count
  · have hr := @range'_append_1 0 (k * job.size)
      (min job.count (k * job.size + job.size) - k * job.size)
    rw [Nat.zero_add, Nat.add_sub_cancel' (by omega)] at hr
    rw [Nat.min_eq_right hk, range_eq_range', range_eq_range', hr]
  · rw [Nat.min_eq_left (by omega), Nat.min_eq_left (by omega), Nat.sub_eq_zero_of_le (by omega)]
    simp

theorem exact_chunks (k : ℕ) : Exact job.body (range (min job.count (k * job.size)))
      ((range k).flatMap fun c => (serialLoop job.body (job.indices c)).1)
      (((range k).map fun c => (serialLoop job.body (job.indices c)).2).findSome? id) := by
  induction k with
  | zero => simpa [serialLoop] using exact_serialLoop job.body []
  | succ k ih =>
    rw [range_succ, range_append_indices, flatMap_append, map_append, findSome?_append]
    simpa using ih.append (exact_serialLoop job.body (job.indices k))

end Chunks

section Runs

def Worker.held : Worker → Multiset ℕ
  | .claiming | .finished => 0
  | .running chunk => {chunk}

def Worker.weight : Worker → ℕ
  | .claiming => 1
  | .running _ => 2
  | .finished => 0

theorem sum_update {M : Type} [AddCommMonoid M] (f : Worker → M) (g : Fin n → Worker)
    (w : Fin n) (x : Worker) : ∑ v, f (update g w x v) + f (g w) = ∑ v, f (g v) + f x := by
  have ho : ∑ v ∈ Finset.univ.erase w, f (update g w x v) =
      ∑ v ∈ Finset.univ.erase w, f (g v) :=
    Finset.sum_congr rfl fun v hv => by rw [update_of_ne (Finset.ne_of_mem_erase hv)]
  rw [← Finset.add_sum_erase _ _ (Finset.mem_univ w), ho,
    ← Finset.add_sum_erase _ (fun v => f (g v)) (Finset.mem_univ w), update_self]
  ac_rfl

/-- Every chunk below `next` is held by one worker or was run. -/
structure Inv (s : State n ε) (ran : Multiset ℕ) : Prop where
  chunks : ran + ∑ w, (s.worker w).held = Multiset.range (min s.next job.chunks)
  finished : ∀ w, s.worker w = .finished → job.chunks ≤ s.next
  calls : (s.calls : Multiset ℕ) = ran.bind fun c => (serialLoop job.body (job.indices c)).1
  failed : ∀ c, s.failures c =
    if c ∈ ran then (serialLoop job.body (job.indices c)).2 else none

variable {job} {s : State n ε} {ran : Multiset ℕ}

theorem inv_start : Inv job (.start : State n ε) 0 := by
  constructor <;> simp [State.start, Worker.held]

theorem Inv.step (h : Inv job s ran) (w : Fin n) : ∃ ran, Inv job (step job s w) ran := by
  have hsum := sum_update Worker.held s.worker w
  unfold Parallel.step
  split
  next hw =>
    refine ⟨ran, ?_, fun v hv => ?_, h.calls, h.failed⟩ <;> dsimp only at *
    · have hsu := hsum (if s.next < job.chunks then .running s.next else .finished)
      rw [hw, Worker.held, add_zero] at hsu
      rw [hsu, ← add_assoc, h.chunks]
      split_ifs with hn
      · rw [min_eq_left hn.le, min_eq_left hn, Multiset.range_succ, Worker.held, add_comm,
          Multiset.singleton_add]
      · rw [min_eq_right (by omega), min_eq_right (by omega), Worker.held, add_zero]
    · by_cases hvw : v = w
      · grind [update_self]
      · exact (h.finished v (by simpa [hvw] using hv)).trans (le_succ _)
  next chunk hw =>
    have hsu := hsum .claiming
    rw [hw, Worker.held, Worker.held, add_zero] at hsu
    refine ⟨ran + {chunk}, ?_, fun v hv => ?_, ?_, fun c => ?_⟩ <;> dsimp only at *
    · rw [← h.chunks, ← hsu]
      ac_rfl
    · by_cases hvw : v = w
      · simp [hvw] at hv
      · exact h.finished v (by simpa [hvw] using hv)
    · rw [Multiset.add_bind, Multiset.singleton_bind, ← h.calls, ← Multiset.coe_add]
    · have hf := h.failed c
      by_cases hc : c = chunk
      · subst hc
        cases ht : (serialLoop job.body (job.indices c)).2 <;> simp_all
      · cases (serialLoop job.body (job.indices chunk)).2 <;> simp_all
  next hw => exact ⟨ran, h⟩

theorem Inv.run (h : Inv job s ran) (schedule : List (Fin n)) :
    ∃ ran, Inv job (schedule.foldl (Parallel.step job) s) ran := by
  induction schedule generalizing s ran with
  | nil => exact ⟨ran, h⟩
  | cons w schedule ih =>
    obtain ⟨ran, h⟩ := h.step w
    exact ih h

theorem Inv.exact (h : Inv job s ran) (hf : ∀ w, s.worker w = .finished) (w : Fin n) {k : ℕ}
    (hk : min job.count (job.chunks * job.size) = k) :
    Exact job.body (range k) s.calls (rethrown job s) := by
  subst hk
  have hr : ran = Multiset.range job.chunks := by
    have hc := h.chunks
    rwa [min_eq_right (h.finished w (hf w)),
      Finset.sum_eq_zero fun v _ => by rw [hf v, Worker.held], add_zero] at hc
  have he := @exact_chunks _ job job.chunks
  have hp : s.calls.Perm ((range job.chunks).flatMap fun c =>
      (serialLoop job.body (job.indices c)).1) := by
    rw [← Multiset.coe_eq_coe, h.calls, hr]
    exact Multiset.coe_bind ..
  refine ⟨hp.subperm.trans he.once, fun hn => hp.trans (he.all hn), ?_⟩
  rw [← he.least, rethrown]
  refine congrArg (findSome? id) (map_congr_left fun c hc => ?_)
  rw [h.failed, hr, if_pos (Multiset.mem_range.mpr (mem_range.mp hc))]

theorem ends (job : Job ε) : Ends job n := by
  refine Subrelation.wf ?_
    (measure fun s : State n ε => 2 * (job.chunks - s.next) + ∑ w, (s.worker w).weight).wf
  rintro _ s ⟨w, hn, rfl⟩
  have hsum := sum_update Worker.weight s.worker w
  change 2 * (job.chunks - (step job s w).next) + ∑ v, ((step job s w).worker v).weight < _
  unfold Parallel.step
  split
  next hw =>
    rw [hw] at hsum
    dsimp only
    split_ifs with hc
    · have hsu : _ + 1 = _ + 2 := hsum (.running s.next)
      omega
    · have hsu : _ + 1 = _ + 0 := hsum .finished
      omega
  next hw =>
    rw [hw] at hsum
    have hsu : _ + 2 = _ + 1 := hsum .claiming
    dsimp only
    omega
  next hw => exact absurd hw hn

theorem exists_finished (job : Job ε) (s : State n ε) :
    ∃ schedule : List (Fin n), ∀ w, (schedule.foldl (step job) s).worker w = .finished := by
  induction s using (ends job).induction with
  | _ s ih =>
    by_cases hf : ∀ w, s.worker w = .finished
    · exact ⟨[], hf⟩
    · obtain ⟨w, hw⟩ := not_forall.mp hf
      obtain ⟨schedule, h⟩ := ih _ ⟨w, hw, rfl⟩
      exact ⟨w :: schedule, h⟩

end Runs

theorem count_le_chunks_iff {count size : ℕ} (h : 0 < size) (hs : size ≤ max 1 count) :
    count ≤ chunkCount count size * size ↔ count + size ≤ 2 ^ 64 := by
  have hd := div_add_mod ((count + size - 1) % 2 ^ 64) size
  have hm := mod_lt ((count + size - 1) % 2 ^ 64) h
  rw [chunkCount, mul_comm]
  omega

theorem fits_of_exact {jobs count grain : ℕ} (hn : 1 < parallelWorkers jobs count grain)
    (h : ∀ calls thrown, Returns jobs count grain (fun _ => (none : Option Unit)) calls thrown →
      Exact (fun _ => (none : Option Unit)) (range count) calls thrown) :
    count ≤ chunkCount count (chunkSize count (parallelWorkers jobs count grain)) *
      chunkSize count (parallelWorkers jobs count grain) := by
  obtain ⟨schedule, hf⟩ :=
    exists_finished (.make jobs count grain fun _ => (none : Option Unit))
    (.start : State (parallelWorkers jobs count grain) Unit)
  obtain ⟨ran, hr⟩ := inv_start.run schedule
  have hp := (hr.exact hf ⟨0, by omega⟩ rfl).all fun _ _ => rfl
  have hq :=
    (h _ _ (by rw [Returns, if_neg hn.not_ge]; exact ⟨_, hf, rfl, rfl⟩)).all fun _ _ => rfl
  have hl := (hq.symm.trans hp).length_eq
  rw [length_range, length_range] at hl
  exact hl.le.trans (min_le_right ..)

theorem parallelFor_exact_iff (jobs count grain : ℕ) :
    (∀ (ε : Type) (body : ℕ → Option ε),
      Ends (.make jobs count grain body) (parallelWorkers jobs count grain) ∧ ∀ calls thrown,
        Returns jobs count grain body calls thrown → Exact body (range count) calls thrown) ↔
    parallelWorkers jobs count grain ≤ 1 ∨
      count + chunkSize count (parallelWorkers jobs count grain) ≤ 2 ^ 64 := by
  have hc := @count_le_chunks_iff count (chunkSize count (parallelWorkers jobs count grain))
    (Nat.le_max_left ..) (max_le_max_left 1 (Nat.div_le_self ..))
  constructor
  · intro h
    refine or_iff_not_imp_left.mpr fun hn => hc.mp ?_
    exact fits_of_exact (not_le.mp hn) (h Unit _).2
  · intro h ε body
    refine ⟨ends _, fun calls thrown hr => ?_⟩
    rw [Returns] at hr
    split_ifs at hr with hn
    · obtain ⟨rfl, rfl⟩ := Prod.mk.inj hr
      exact exact_serialLoop ..
    · obtain ⟨schedule, hf, rfl, rfl⟩ := hr
      obtain ⟨ran, hi⟩ := inv_start.run schedule
      exact hi.exact hf ⟨0, by omega⟩ (min_eq_left (hc.mpr (h.resolve_left hn)))

/-- The largest count: the number of chunks wraps around to none. -/
theorem parallelFor_misses_indices : ¬ ∀ calls thrown,
    Returns 2 (2 ^ 64 - 1) 64 (fun _ => (none : Option Unit)) calls thrown →
      Exact (fun _ => (none : Option Unit)) (range (2 ^ 64 - 1)) calls thrown := by
  intro h
  have hf := fits_of_exact (by decide) h
  revert hf
  decide

end FsimRuntime.Parallel

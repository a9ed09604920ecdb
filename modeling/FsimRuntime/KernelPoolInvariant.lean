import FsimRuntime.KernelPoolModel

/-!
# Batches of the worker pool

Between two calls no thread holds a claim. During a `run` the claimed items
are those already started and those that the claiming threads still owe, and
during a `runLanes` every lane has begun its own invocation at most once.
-/

namespace FsimRuntime.KernelPool
open Finset Function

def TakePc.epoch : TakePc → ℕ
  | .checkPinned word => word.epoch
  | .checkState epoch | .loadPinned epoch | .startPinned epoch _ | .runPinned epoch _
  | .storeDone epoch | .claim epoch _ | .exchange epoch _ _ | .loadBody epoch _ _
  | .runItems epoch _ _ _ _ | .inItem epoch _ _ _ _ | .reload epoch => epoch

def TakePc.WellFormed : TakePc → Prop
  | .exchange epoch word last => word.epoch = epoch ∧ word.item < last ∧ last ≤ word.count
  | .loadBody _ item last => item < last
  | .runItems _ _ item next last => item < last ∧ item ≤ next ∧ next ≤ last
  | .inItem _ _ item next last => item ≤ next ∧ next < last
  | _ => True

/-- A thread in `take` that has claimed nothing and entered no pinned batch. -/
def TakePc.Light : TakePc → Prop
  | .checkPinned _ | .claim _ _ | .exchange _ _ _ | .reload _ => True
  | _ => False

def TakePc.Dynamic (body : ℕ) : TakePc → Prop
  | .checkState _ | .loadPinned _ | .startPinned _ _ | .runPinned _ _ | .storeDone _ => False
  | .runItems _ own _ _ _ | .inItem _ own _ _ _ => own = some body
  | _ => True

def TakePc.Pinned (body : ℕ) : TakePc → Prop
  | .checkPinned _ | .checkState _ | .loadPinned _ | .storeDone _ => True
  | .startPinned _ own | .runPinned _ own => own = some body
  | _ => False

def toStart : Option TakePc → Multiset ℕ
  | some (.loadBody _ item last) => List.range' item (last - item)
  | some (.runItems _ _ _ next last) => List.range' next (last - next)
  | some (.inItem _ _ _ next last) => List.range' (next + 1) (last - (next + 1))
  | _ => 0

def toFinish : Option TakePc → Multiset ℕ
  | some (.loadBody _ item last) => List.range' item (last - item)
  | some (.runItems _ _ _ next last) => List.range' next (last - next)
  | some (.inItem _ _ _ next last) => List.range' next (last - next)
  | _ => 0

def held : Option TakePc → ℕ
  | some (.loadBody _ item last) => last - item
  | some (.runItems _ _ item _ last) => last - item
  | some (.inItem _ _ item _ last) => last - item
  | _ => 0

def items (k : ℕ) (log : List Invocation) : Multiset ℕ :=
  ((log.filter fun i => i.body = some k).map (·.item) : List ℕ)

def pairs (k : ℕ) (log : List Invocation) : Multiset (ℕ × ℕ) :=
  ((log.filter fun i => i.body = some k).map fun i => (i.lane, i.item) : List (ℕ × ℕ))

/-- Every item of a `run` once, on some lane; every lane of a `runLanes` once,
with its own number as the item. -/
def Covers (lanes k : ℕ) (call : Call) (log : List Invocation) : Prop :=
  match call with
  | .run count => items k log = Multiset.range count
  | .runLanes => pairs k log = (Multiset.range lanes).map fun lane => (lane, lane)

def Exact (lanes k : ℕ) (call : Call) (m : Shared) : Prop :=
  Covers lanes k call m.started ∧ Covers lanes k call m.finished

section Logs
variable {k : ℕ} {log : List Invocation} {l item : ℕ} {a b : ℕ}

theorem items_append_self : items k (log ++ [⟨some k, l, item⟩]) = items k log + {item} := by
  simp [items, ← Multiset.coe_add]

theorem pairs_append_self :
    pairs k (log ++ [⟨some k, l, item⟩]) = pairs k log + {(l, item)} := by
  simp [pairs, ← Multiset.coe_add]

theorem items_of_forall_ne (h : ∀ i ∈ log, i.body ≠ some k) : items k log = 0 := by
  have hn : log.filter (fun i => i.body = some k) = [] := by simpa using h
  simp [items, hn]

theorem pairs_of_forall_ne (h : ∀ i ∈ log, i.body ≠ some k) : pairs k log = 0 := by
  have hn : log.filter (fun i => i.body = some k) = [] := by simpa using h
  simp [pairs, hn]

theorem range'_cons_coe (h : a < b) : ((List.range' a (b - a) : List ℕ) : Multiset ℕ) =
      {a} + (List.range' (a + 1) (b - (a + 1)) : List ℕ) := by
  obtain ⟨n, rfl⟩ : ∃ n, b = a + 1 + n := ⟨b - (a + 1), by omega⟩
  have hl : a + 1 + n - a = n + 1 := by omega
  have hr : a + 1 + n - (a + 1) = n := by omega
  rw [hl, hr]
  rfl

theorem range_add_range' (h : a ≤ b) :
    Multiset.range a + ((List.range' a (b - a) : List ℕ) : Multiset ℕ) = Multiset.range b := by
  have hs : List.range b = List.range a ++ List.range' a (b - a) := by
    have := @List.range'_append_1 0 a (b - a)
    rw [Nat.zero_add, Nat.add_sub_cancel' h] at this
    rw [List.range_eq_range', List.range_eq_range', ← this]
  rw [Multiset.range, Multiset.range, hs, Multiset.coe_add]

theorem exists_sum_split {M : Type*} [AddCommMonoid M] {n i : ℕ} (hi : i < n) {f f' : ℕ → M}
    (h : ∀ l, l ≠ i → f' l = f l) :
    ∃ r, ∑ l ∈ range n, f l = f i + r ∧ ∑ l ∈ range n, f' l = f' i + r := by
  have hm : i ∈ range n := mem_range.mpr hi
  refine ⟨∑ l ∈ (range n).erase i, f l, (add_sum_erase _ _ hm).symm, ?_⟩
  rw [← add_sum_erase _ _ hm]
  exact congrArg _ (sum_congr rfl fun l hl => h l (ne_of_mem_erase hl))

theorem update_eq_some {f : ℕ → Option TakePc} {v : Option TakePc} {u : TakePc}
    (h : update f a v l = some u) : l = a ∧ v = some u ∨ l ≠ a ∧ f l = some u := by
  by_cases hl : l = a
  · subst hl
    exact .inl ⟨rfl, by simpa using h⟩
  · exact .inr ⟨hl, by simpa [hl] using h⟩

end Logs

def TakePc.starts (lane : ℕ) : TakePc → List Invocation
  | .startPinned _ body => [⟨body, lane, lane⟩]
  | .runItems _ body _ next last => if next < last then [⟨body, lane, next⟩] else []
  | _ => []

def TakePc.finishes (lane : ℕ) : TakePc → List Invocation
  | .runPinned _ body => [⟨body, lane, lane⟩]
  | .inItem _ body _ next _ => [⟨body, lane, next⟩]
  | _ => []

section Take
variable {l : ℕ} {s : Bool} {m : Shared} {t t' : TakePc}

theorem takeStep_started : (takeStep l s m t).1.started = m.started ++ t.starts l := by
  cases t <;> simp only [takeStep, TakePc.starts, List.append_nil] <;> split <;> simp

theorem takeStep_finished : (takeStep l s m t).1.finished = m.finished ++ t.finishes l := by
  cases t <;> simp only [takeStep, TakePc.finishes, List.append_nil] <;> split <;> rfl

theorem takeStep_epoch (h : (takeStep l s m t).2 = some t') : t'.epoch = t.epoch := by
  cases t <;> simp only [takeStep] at h <;> (try split at h) <;> cases h <;> rfl

theorem takeStep_wellFormed (hch : 1 ≤ m.chunk) (hw : t.WellFormed)
    (h : (takeStep l s m t).2 = some t') : t'.WellFormed := by
  cases t with
  | checkPinned w =>
    obtain rfl := Option.some.inj h
    split <;> trivial
  | checkState epoch =>
    simp only [takeStep] at h
    split at h
    · cases h
      trivial
    · cases h
  | claim epoch w =>
    simp only [takeStep] at h
    split at h
    · cases h
    · next hc =>
      cases h
      simp only [not_or, not_not] at hc
      exact ⟨hc.1, by omega, by omega⟩
  | exchange epoch w last =>
    simp only [takeStep] at h
    split at h
    · cases h
      exact hw.2.1
    · cases h
      trivial
  | loadBody epoch item last =>
    cases h
    exact ⟨hw, le_rfl, Nat.le_of_lt hw⟩
  | runItems epoch b item next last =>
    simp only [takeStep] at h
    split at h
    · next hl =>
      cases h
      exact ⟨hw.2.1, hl⟩
    · cases h
      trivial
  | inItem epoch b item next last =>
    cases h
    exact ⟨by have := hw.1; have := hw.2; omega, by have := hw.1; omega, hw.2⟩
  | loadPinned | startPinned | runPinned | reload =>
    cases h
    trivial
  | storeDone => cases h

end Take

structure Base (lanes : ℕ) (calls : List Call) (s : State) : Prop where
  threads : ∀ lane < lanes, ∀ t, s.take lane = some t → t.epoch = s.seen lane ∧ t.WellFormed
  chunk : 1 ≤ s.shared.chunk
  past : ∀ k < s.index, ∃ call, calls[k]? = some call ∧ Exact lanes k call s.shared
  started : ∀ i ∈ s.shared.started, ∃ k ≤ s.index, i.body = some k
  finished : ∀ i ∈ s.shared.finished, ∃ k ≤ s.index, i.body = some k

def LeaderPc.Resting : LeaderPc → Prop
  | .taking | .waitCompleted | .scan _ _ _ | .advance _ => False
  | _ => True

/-- Every worker has seen the current batch and has read its mode, and no done
mark is the next batch number. -/
def Settled (lanes : ℕ) (s : State) : Prop :=
  ∀ lane, 1 ≤ lane → lane < lanes → s.seen lane = s.shared.word.epoch ∧
    (∀ word, s.take lane ≠ some (.checkPinned word)) ∧
    s.shared.done lane ≠ some ((s.shared.word.epoch + 1) % epochLimit)

structure Rest (lanes : ℕ) (calls : List Call) (s : State) : Prop where
  resting : s.leader.Resting
  leader : s.take 0 = none
  light : ∀ lane < lanes, ∀ t, s.take lane = some t → t.Light
  complete : s.shared.word.count ≤ s.shared.word.item ∨
    ∀ lane, 1 ≤ lane → lane < lanes → s.take lane = none ∧
    s.seen lane = s.shared.word.epoch
  pinned : s.shared.pinned = true → ∀ lane, 1 ≤ lane → lane < lanes →
    s.seen lane = s.shared.word.epoch ∧ ∀ word, s.take lane ≠ some (.checkPinned word)
  started : ∀ i ∈ s.shared.started, i.body ≠ some s.index
  finished : ∀ i ∈ s.shared.finished, i.body ≠ some s.index
  mode : s.leader ≠ .between → ∃ call, calls[s.index]? = some call ∧
    s.shared.pinned = decide (call = .runLanes) ∧
    (call = .runLanes → ∀ lane, 1 ≤ lane → lane < lanes →
      s.shared.done lane ≠ some ((s.shared.word.epoch + 1) % epochLimit))
  body : s.leader ≠ .between → s.leader ≠ .storeBody → s.shared.body = some s.index
  completed : s.leader = .loadState ∨ (∃ epoch, s.leader = .storeState epoch) →
    s.shared.completed = 0
  epoch : ∀ epoch, s.leader = .storeState epoch →
    epoch = (s.shared.word.epoch + 1) % epochLimit

structure RunActive (lanes count : ℕ) (calls : List Call) (s : State) : Prop where
  call : calls[s.index]? = some (.run count)
  leader : s.leader = .taking ∨ s.leader = .waitCompleted ∧ s.take 0 = none
  pinned : s.shared.pinned = false
  body : s.shared.body = some s.index
  threads : ∀ lane < lanes, ∀ t, s.take lane = some t → t.Dynamic s.index
  wordCount : s.shared.word.count = count
  item_le : s.shared.word.item ≤ count
  started : items s.index s.shared.started + ∑ lane ∈ range lanes, toStart (s.take lane) =
    Multiset.range s.shared.word.item
  finished : items s.index s.shared.finished + ∑ lane ∈ range lanes, toFinish (s.take lane) =
    Multiset.range s.shared.word.item
  completed : s.shared.completed + ∑ lane ∈ range lanes, held (s.take lane) = s.shared.word.item

def begun (epoch seen lane : ℕ) : Option TakePc → Multiset (ℕ × ℕ)
  | some (.runPinned _ _) | some (.storeDone _) => {(lane, lane)}
  | none => if seen = epoch then {(lane, lane)} else 0
  | _ => 0

def ended (epoch seen lane : ℕ) : Option TakePc → Multiset (ℕ × ℕ)
  | some (.storeDone _) => {(lane, lane)}
  | none => if seen = epoch then {(lane, lane)} else 0
  | _ => 0

/-- The batch of a `runLanes` is active. A worker that has not seen it yet
holds no claim and will not read the mode of an older batch. -/
structure LanesActive (lanes : ℕ) (calls : List Call) (s : State) : Prop where
  call : calls[s.index]? = some .runLanes
  leader : ¬ s.leader.Resting ∧ s.leader ≠ .waitCompleted
  waiting : s.leader ≠ .taking → s.take 0 = none
  pinned : s.shared.pinned = true
  body : s.shared.body = some s.index
  seen : s.seen 0 = s.shared.word.epoch
  late : ∀ lane < lanes, s.seen lane ≠ s.shared.word.epoch → ∀ t, s.take lane = some t →
    t.Light ∧ ∀ word, t ≠ .checkPinned word
  current : ∀ lane < lanes, s.seen lane = s.shared.word.epoch → ∀ t, s.take lane = some t →
    t.Pinned s.index
  done : ∀ lane, 1 ≤ lane → lane < lanes → s.shared.done lane = some s.shared.word.epoch →
    s.take lane = none ∧ s.seen lane = s.shared.word.epoch
  started : pairs s.index s.shared.started =
    ∑ lane ∈ range lanes, begun s.shared.word.epoch (s.seen lane) lane (s.take lane)
  finished : pairs s.index s.shared.finished =
    ∑ lane ∈ range lanes, ended s.shared.word.epoch (s.seen lane) lane (s.take lane)
  scanned : ∀ first lane done, s.leader = .scan first lane done →
    ∀ l, 1 ≤ l → l < lanes →
    (l < first ∨ done = true ∧ l < lane) → s.shared.done l = some s.shared.word.epoch
  advanced : ∀ first, s.leader = .advance first → ∀ l, 1 ≤ l → l < lanes → l < first →
    s.shared.done l = some s.shared.word.epoch

inductive Inv (lanes : ℕ) (calls : List Call) (s : State) : Prop
  | rest (base : Base lanes calls s) (h : Rest lanes calls s)
  | run (count : ℕ) (base : Base lanes calls s) (h : RunActive lanes count calls s)
  | lanes (base : Base lanes calls s) (h : LanesActive lanes calls s)

end FsimRuntime.KernelPool

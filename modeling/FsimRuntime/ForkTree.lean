import Mathlib

/-!
# Ending the processes of a fork tree

`cancel_fork_descendants`, `kill_dynamic_processes` and the kills of `DisableFork`
without a site and of `ProcessKill` in `simir_fork.cpp`. A process is the position
of its record: a fork appends the records of its children, with the design process
of their parent. What a completion does to waiting processes ends none and is
left out.
-/

namespace FsimRuntime.Fork
open List

inductive Status
  | live
  | finished
  | killed
  deriving DecidableEq

structure ForkTree where
  size : ℕ
  forkParent : ℕ → Option ℕ
  forkDetached : ℕ → Bool
  designProcess : ℕ → ℕ
  parent_lt {p q : ℕ} : forkParent q = some p → p < q ∧ q < size
  inherits {p q : ℕ} : forkParent q = some p → designProcess q = designProcess p

namespace ForkTree

variable (t : ForkTree)

def children (p : ℕ) : List ℕ := (range t.size).filter (t.forkParent · = some p)

theorem mem_children {t : ForkTree} {p q : ℕ} : q ∈ t.children p ↔
    t.forkParent q = some p := by
  simpa [children] using fun h => (t.parent_lt h).2

/-- `complete_fork_child` and `complete_process` of a process that is not halted. -/
def complete (q : ℕ) (s : ℕ → Status) : ℕ → Status :=
  if s q = .live then Function.update s q .killed else s

def cancelForkDescendants (p : ℕ) (s : ℕ → Status) : ℕ → Status :=
  (t.children p).attach.foldl (fun s child => complete child.1 (cancelForkDescendants child.1 s)) s
termination_by t.size - p
decreasing_by
  have := t.parent_lt (mem_children.mp child.2)
  omega

def disableFork (p : ℕ) (s : ℕ → Status) : ℕ → Status :=
  if (t.children p).any fun child => s child = .live ∧ t.forkDetached child then
    ((t.children p).filter fun child => s child = .live ∧ !t.forkDetached child).foldl
      (fun s child => complete child (t.cancelForkDescendants child s)) s
  else t.cancelForkDescendants p s

def processKill (target : ℕ) (s : ℕ → Status) : ℕ → Status :=
  complete target (t.cancelForkDescendants target s)

def killDynamicProcesses (designProcesses : List ℕ) (s : ℕ → Status) : ℕ → Status :=
  ((range t.size).filter fun candidate => s candidate = .live ∧
    t.designProcess candidate ∈ designProcesses ∧ ∃ parent ∈ t.forkParent candidate,
      t.forkParent parent = none ∨ s parent ≠ .live).foldl
    (fun s root => if s root = .live then t.processKill root s else s) s

end ForkTree

section Kill

variable {A B : Set ℕ} {s : ℕ → Status}

open Classical in
/-- The processes of a set are killed where they are live. -/
noncomputable def kill (A : Set ℕ) (s : ℕ → Status) (q : ℕ) : Status :=
  if q ∈ A ∧ s q = .live then .killed else s q

theorem kill_kill : kill B (kill A s) = kill (A ∪ B) s := by
  funext q
  by_cases hA : q ∈ A <;> by_cases hB : q ∈ B <;> cases h : s q <;> simp [kill, hA, hB, h]

theorem kill_inj : kill A s = kill B s ↔ ∀ q, s q = .live → (q ∈ A ↔ q ∈ B) := by
  rw [funext_iff]
  refine forall_congr' fun q => ?_
  by_cases hA : q ∈ A <;> by_cases hB : q ∈ B <;> cases h : s q <;> simp [kill, hA, hB, h]

theorem kill_live_iff {q : ℕ} : kill A s q = .live ↔ q ∉ A ∧ s q = .live := by
  by_cases hA : q ∈ A <;> cases h : s q <;> simp [kill, hA, h]

theorem complete_eq (q : ℕ) (s : ℕ → Status) : ForkTree.complete q s = kill {q} s := by
  funext q'
  by_cases hq : q' = q <;> cases h : s q <;> simp [ForkTree.complete, kill, hq, h]

theorem foldl_kill {ι : Type*} {f : (ℕ → Status) → ι → ℕ → Status}
    {A : ι → Set ℕ} (hf : ∀ s i, f s i = kill (A i) s) (l : List ι) (s : ℕ → Status) :
    l.foldl f s = kill {q | ∃ i ∈ l, q ∈ A i} s := by
  induction l generalizing s with
  | nil => simp [kill, funext_iff]
  | cons i l ih =>
    rw [foldl_cons, ih, hf, kill_kill]
    congr 1
    ext q
    simp

end Kill

namespace ForkTree

variable {t : ForkTree} {p q c : ℕ} {s : ℕ → Status} {l : List ℕ}

def Subtree (t : ForkTree) (p : ℕ) : Set ℕ :=
  {q | Relation.ReflTransGen (fun a b => t.forkParent b = some a) p q}

def Below (t : ForkTree) (p : ℕ) : Set ℕ :=
  {q | Relation.TransGen (fun a b => t.forkParent b = some a) p q}

/-- The processes below `p` with no detached one on the way. -/
def Attached (t : ForkTree) (p : ℕ) : Set ℕ :=
  {q | Relation.TransGen (fun a b => t.forkParent b = some a ∧ t.forkDetached b = false) p q}

theorem mem_below : q ∈ t.Below p ↔ ∃ c, t.forkParent c = some p ∧ q ∈ t.Subtree c :=
  Relation.TransGen.head'_iff

theorem below_union : t.Below p ∪ {p} = t.Subtree p := by
  ext q
  exact or_comm.trans Relation.reflTransGen_iff_eq_or_transGen.symm

theorem cancelForkDescendants_eq (p : ℕ) (s : ℕ → Status) :
    t.cancelForkDescendants p s = kill (t.Below p) s := by
  rw [cancelForkDescendants, foldl_kill (A := fun child => t.Subtree child.1)]
  · congr 1
    ext q
    simp [mem_below, mem_children]
  · intro s child
    rw [cancelForkDescendants_eq child, complete_eq, kill_kill, below_union]
termination_by t.size - p
decreasing_by
  have := t.parent_lt (mem_children.mp child.2)
  omega

theorem processKill_eq (target : ℕ) (s : ℕ → Status) :
    t.processKill target s = kill (t.Subtree target) s := by
  rw [processKill, cancelForkDescendants_eq, complete_eq, kill_kill, below_union]

/-- A root that is no longer live has been killed with all below it. -/
theorem foldl_processKill (hl : ∀ r ∈ l, s r = .live) :
    l.foldl (fun s root => if s root = .live then t.processKill root s else s) s =
      kill {q | ∃ r ∈ l, q ∈ t.Subtree r} s := by
  induction l using reverseRecOn with
  | nil => simp [kill, funext_iff]
  | append_singleton l r ih =>
    rw [forall_mem_append, forall_mem_singleton] at hl
    rw [foldl_append, ih hl.1, foldl_cons, foldl_nil, processKill_eq, kill_kill]
    split_ifs with h
    · congr 1
      ext q
      simp [or_and_right, exists_or]
    · obtain ⟨r', hr', hr⟩ : ∃ r' ∈ l, r ∈ t.Subtree r' := by
        by_contra hn
        exact h (kill_live_iff.mpr ⟨hn, hl.2⟩)
      congr 1
      ext q
      simp only [mem_append, mem_singleton]
      constructor
      · rintro ⟨r, hm, hq⟩
        exact ⟨r, .inl hm, hq⟩
      · rintro ⟨r₀, hm | rfl, hq⟩
        · exact ⟨r₀, hm, hq⟩
        · exact ⟨r', hr', Relation.ReflTransGen.trans hr hq⟩

theorem killDynamicProcesses_ends {designProcesses : List ℕ} (hq : t.forkParent q ≠ none)
    (hd : t.designProcess q ∈ designProcesses) :
    t.killDynamicProcesses designProcesses s q ≠ .live := by
  rw [killDynamicProcesses, foldl_processKill (by simp +contextual), Ne, kill_live_iff]
  rintro ⟨hn, hlive⟩
  refine hn ?_
  clear hn
  induction q using Nat.strong_induction_on with
  | _ q ih =>
    obtain ⟨p, hp⟩ := Option.ne_none_iff_exists'.mp hq
    by_cases hroot : t.forkParent p = none ∨ s p ≠ .live
    · refine ⟨q, ?_, .refl⟩
      simp [hlive, hd, hp, hroot, (t.parent_lt hp).2]
    · rw [not_or, not_not] at hroot
      obtain ⟨r, hr, hrp⟩ := ih p (t.parent_lt hp).1 hroot.1 (t.inherits hp ▸ hd) hroot.2
      exact ⟨r, hr, .tail hrp hp⟩

def LiveDetached (t : ForkTree) (p : ℕ) (s : ℕ → Status) : Prop :=
  ∃ c, t.forkParent c = some p ∧ s c = .live ∧ t.forkDetached c = true

/-- The processes at or below the live children of `p` that are not detached. -/
def AtChildren (t : ForkTree) (p : ℕ) (s : ℕ → Status) : Set ℕ :=
  {q | ∃ c, t.forkParent c = some p ∧ s c = .live ∧ t.forkDetached c = false ∧
    q ∈ t.Subtree c}

open Classical in
theorem disableFork_eq (p : ℕ) (s : ℕ → Status) :
    t.disableFork p s = kill (if t.LiveDetached p s then t.AtChildren p s else t.Below p) s := by
  have hany : ((t.children p).any fun c => s c = .live ∧ t.forkDetached c) = true ↔
      t.LiveDetached p s := by simp [LiveDetached, mem_children]
  rw [disableFork]
  simp only [hany]
  split_ifs
  · rw [foldl_kill (A := t.Subtree)]
    · simp [mem_children, AtChildren, and_assoc]
    · intro s c
      rw [cancelForkDescendants_eq, complete_eq, kill_kill, below_union]
  · exact cancelForkDescendants_eq p s

/-- With a live detached child, no attached process is left under an ended child; and nothing
under a detached process is killed with the others. -/
def Spares (t : ForkTree) (p : ℕ) (s : ℕ → Status) : Prop :=
  (t.LiveDetached p s → ∀ q ∈ t.Attached p, s q = .live → q ∈ t.AtChildren p s) ∧
    (t.LiveDetached p s → ∀ q ∈ t.AtChildren p s, s q = .live → q ∈ t.Attached p) ∧
    (¬ t.LiveDetached p s → ∀ q ∈ t.Below p, s q = .live → q ∈ t.Attached p)

theorem attached_subset : t.Attached p ⊆ t.Below p :=
  fun q h => Relation.TransGen.mono (fun _ _ => And.left) p q h

theorem kills_exact_iff (t : ForkTree) (s : ℕ → Status) (p target : ℕ)
    (designProcesses : List ℕ) : (t.disableFork p s = kill (t.Attached p) s ∧
        t.processKill target s = kill (t.Subtree target) s ∧
        ∀ q, t.forkParent q ≠ none → t.designProcess q ∈ designProcesses →
          t.killDynamicProcesses designProcesses s q ≠ .live) ↔ t.Spares p s := by
  rw [disableFork_eq, kill_inj]
  refine (and_iff_left ⟨processKill_eq target s, fun q => killDynamicProcesses_ends⟩).trans ?_
  by_cases hdet : t.LiveDetached p s
  · simp only [Spares, hdet, if_true, forall_const, not_true, false_imp_iff,
      and_true, ← forall_and]
    refine forall_congr' fun q => ?_
    tauto
  · simp only [Spares, hdet, if_false, false_imp_iff, true_and, not_false_eq_true, forall_const]
    refine forall_congr' fun q => ?_
    have := @attached_subset t p q
    tauto

def nested : ForkTree where
  size := 3
  forkParent q := if q = 1 then some 0 else if q = 2 then some 1 else none
  forkDetached q := q = 2
  designProcess _ := 0
  parent_lt {p q} h := by
    split_ifs at h <;> simp at h <;> omega
  inherits _ := rfl

theorem disableFork_kills_detached :
    nested.disableFork 0 (fun _ => .live) ≠ kill (nested.Attached 0) fun _ => .live := by
  have hnone : ¬ nested.LiveDetached 0 fun _ => .live := by
    rintro ⟨c, hp, -, hd⟩
    simp [nested] at hp hd
    omega
  have hbelow : 2 ∈ nested.Below 0 := .tail (.single (b := 1) rfl) rfl
  rw [disableFork_eq, if_neg hnone, Ne, kill_inj]
  intro h
  cases (h 2 rfl).mp hbelow with
  | single h | tail _ h => exact absurd h.2 (by decide)

theorem subtree_designProcess (h : q ∈ t.Subtree p) : t.designProcess q = t.designProcess p := by
  induction h with
  | refl => rfl
  | tail _ h ih => exact (t.inherits h).trans ih

theorem killDynamicProcesses_eq (designProcesses : List ℕ) (s : ℕ → Status) :
    t.killDynamicProcesses designProcesses s =
      kill {q | t.forkParent q ≠ none ∧ t.designProcess q ∈ designProcesses} s := by
  have heq : t.killDynamicProcesses designProcesses s = kill _ s :=
    foldl_processKill (by simp +contextual)
  rw [heq, kill_inj]
  refine fun q hlive => ⟨?_, fun h => ?_⟩
  · rintro ⟨r, hr, hq⟩
    simp only [mem_filter, decide_eq_true_eq] at hr
    obtain ⟨-, -, hd, parent, hp, -⟩ := hr
    refine ⟨?_, (subtree_designProcess hq).symm ▸ hd⟩
    cases hq with
    | refl => simp [Option.mem_def.mp hp]
    | tail _ h => simp [h]
  · by_contra hn
    exact killDynamicProcesses_ends h.1 h.2 (heq ▸ kill_live_iff.mpr ⟨hn, hlive⟩)

inductive KillCall
  | process (target : ℕ)
  | dynamic (designProcesses : List ℕ)

def KillCall.perform (t : ForkTree) (s : ℕ → Status) : KillCall → ℕ → Status
  | .process target => t.processKill target s
  | .dynamic designProcesses => t.killDynamicProcesses designProcesses s

/-- What a call is for: the target and all below it, or every forked process of the design. -/
def KillCall.Covers (t : ForkTree) (q : ℕ) : KillCall → Prop
  | .process target => q ∈ t.Subtree target
  | .dynamic designProcesses => t.forkParent q ≠ none ∧ t.designProcess q ∈ designProcesses

/-- A sequence of kills ends exactly the live processes that one of its calls is for, so neither
their order nor a repetition matters. -/
theorem kill_calls_exact (t : ForkTree) (s : ℕ → Status) (calls : List KillCall) :
    calls.foldl (KillCall.perform t) s = kill {q | ∃ call ∈ calls, call.Covers t q} s := by
  refine foldl_kill (A := fun call => {q | call.Covers t q}) (fun s call => ?_) calls s
  cases call with
  | process target => exact processKill_eq target s
  | dynamic designProcesses => exact killDynamicProcesses_eq designProcesses s

end ForkTree

end FsimRuntime.Fork

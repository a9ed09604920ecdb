import FsimRuntime.KeyedAccumulation
import FsimRuntime.UpdateCommitDrivers

/-!
# Staging of pending updates

Every pending update is folded into one slot, its lane: the one slot of an
unresolved signal or of a direct single driver, or the slot of its driver in
the list of the signal. Which of the two a driver has may change along the
queue.
-/

namespace FsimRuntime.UpdateCommit
open KeyedAccumulation List Function

variable {β : Type}

section Index

variable {staged : List (PendingDriverCommit β)} {entry : PendingDriverCommit β}

def indexOf (staged : List (PendingDriverCommit β)) : List (ℕ × ℕ) :=
  (staged.map fun entry => driverKey entry.driver).zipIdx

theorem driverKey_injective : Injective driverKey := by
  intro d e h
  cases d <;> cases e <;> simp_all [driverKey]

theorem indexOf_concat : indexOf (staged ++ [entry]) =
    indexOf staged ++ [(driverKey entry.driver, staged.length)] := by
  simp [indexOf, zipIdx_append]

theorem length_indexOf : (indexOf staged).length = staged.length := by simp [indexOf]

theorem emplace_indexOf (h : entry.driver ∉ staged.map (·.driver)) :
    emplace (indexOf staged) (driverKey entry.driver) staged.length =
      indexOf (staged ++ [entry]) := by
  rw [emplace, if_neg, indexOf_concat]
  simp only [any_eq_true, decide_eq_true_eq, not_exists, not_and]
  intro p hp hk
  obtain ⟨o, ho, he⟩ := mem_map.mp (fst_mem_of_mem_zipIdx hp)
  have := driverKey_injective (he.trans hk)
  exact h (mem_map.mpr ⟨o, ho, this⟩)

theorem buildIndex_eq (h : (staged.map (·.driver)).Nodup) :
    buildIndex staged = indexOf staged := by
  induction staged using reverseRecOn with
  | nil => rfl
  | append_singleton staged entry ih =>
    rw [map_append, nodup_append] at h
    have hn : entry.driver ∉ staged.map (·.driver) := fun hm =>
      h.2.2 entry.driver hm entry.driver (by simp) rfl
    rw [← emplace_indexOf hn, ← ih h.1]
    simp [buildIndex, zipIdx_append]

theorem find_indexOf (driver : Option ProcessId) :
    ((indexOf staged).find? (·.1 = driverKey driver)).map (·.2) =
      staged.findIdx? (·.driver = driver) := by
  have hs : ∀ (staged : List (PendingDriverCommit β)) (n : ℕ),
      (((staged.map fun entry => driverKey entry.driver).zipIdx n).find?
        (·.1 = driverKey driver)).map (·.2) =
          (staged.findIdx? (·.driver = driver)).map (n + ·) := by
    intro staged
    induction staged with
    | nil => simp
    | cons entry staged ih =>
      intro n
      by_cases hd : entry.driver = driver
      · simp [hd, findIdx?_cons]
      · have hk : driverKey entry.driver ≠ driverKey driver := fun he =>
          hd (driverKey_injective he)
        simp only [map_cons, zipIdx_cons, find?_cons, hk, decide_false, ih (n + 1),
          findIdx?_cons, hd]
        simp only [Bool.false_eq_true, if_false, Option.map_map]
        congr 1
        funext slot
        simp only [comp_apply]
        omega
  simpa [indexOf] using hs staged 0

def Indexed (staged : List (PendingDriverCommit β)) (index : List (ℕ × ℕ)) : Prop :=
  ∃ n ≤ staged.length, index = indexOf (staged.take n)

variable {index : List (ℕ × ℕ)} {s' : List (PendingDriverCommit β)}

theorem Indexed.full (h : Indexed staged index)
    (hl : index.length = staged.length) : index = indexOf staged := by
  obtain ⟨n, hn, rfl⟩ := h
  rw [length_indexOf, length_take, Nat.min_eq_left hn] at hl
  rw [hl, take_length]

theorem indexed_self : Indexed staged (indexOf staged) :=
  ⟨staged.length, Nat.le_refl _, by simp⟩

theorem Indexed.concat (h : Indexed staged index) : Indexed (staged ++ [entry]) index := by
  obtain ⟨n, hn, rfl⟩ := h
  refine ⟨n, by simp; omega, ?_⟩
  rw [take_append_of_le_length hn]

theorem indexOf_congr
    (h : s'.map (·.driver) = staged.map (·.driver)) : indexOf s' = indexOf staged := by
  have hk := congrArg (map driverKey) h
  simp only [map_map] at hk
  exact congrArg (fun keys => keys.zipIdx) hk

theorem Indexed.congr (h : Indexed staged index)
    (hd : s'.map (·.driver) = staged.map (·.driver)) : Indexed s' index := by
  obtain ⟨n, hn, rfl⟩ := h
  have hl : s'.length = staged.length := by simpa using congrArg length hd
  refine ⟨n, hl ▸ hn, (indexOf_congr ?_).symm⟩
  rw [map_take, map_take, hd]

end Index

section Entries

variable {staged : List (PendingDriverCommit β)} {driver : Option ProcessId}

def stagedEntry (staged : List (PendingDriverCommit β)) (driver : Option ProcessId) :
    Option (List β) := (staged.find? (·.driver = driver)).map (·.value)

theorem stagedEntry_eq_none :
    stagedEntry staged driver = none ↔ driver ∉ staged.map (·.driver) := by
  simp [stagedEntry, find?_eq_none, mem_map]

variable {entry : PendingDriverCommit β}

theorem stagedEntry_of_mem (h : (staged.map (·.driver)).Nodup)
    (he : entry ∈ staged) : stagedEntry staged entry.driver = some entry.value := by
  induction staged with
  | nil => simp at he
  | cons head staged ih =>
    rw [map_cons, nodup_cons] at h
    rcases mem_cons.mp he with rfl | he
    · simp [stagedEntry]
    · have hn : head.driver ≠ entry.driver := fun heq =>
        h.1 (heq ▸ mem_map_of_mem he)
      simpa [stagedEntry, hn] using ih h.2 he

theorem findIdx_eq_none :
    staged.findIdx? (·.driver = driver) = none ↔ stagedEntry staged driver = none := by
  simp [stagedEntry, find?_eq_none]

theorem stagedEntry_concat
    (h : stagedEntry staged entry.driver = none) : stagedEntry (staged ++ [entry]) driver =
      if driver = entry.driver then some entry.value else stagedEntry staged driver := by
  unfold stagedEntry at h ⊢
  split_ifs with hd
  · subst hd
    simp [Option.map_eq_none_iff.mp h]
  · simp [Ne.symm hd]

theorem stagedEntry_modify {slot : ℕ} (h : staged.findIdx? (·.driver = driver) = some slot)
    (value : List β) : staged[slot]?.map (·.value) = stagedEntry staged driver ∧
      (staged.modify slot fun entry => { entry with value }).map (·.driver) = staged.map
      (·.driver) ∧
      ∀ d, stagedEntry (staged.modify slot fun entry => { entry with value }) d =
        if d = driver then some value else stagedEntry staged d := by
  induction staged generalizing slot with
  | nil => simp at h
  | cons entry staged ih =>
    rw [findIdx?_cons] at h
    by_cases hdr : entry.driver = driver
    · obtain rfl : 0 = slot := by simpa [hdr] using h
      refine ⟨by simp [stagedEntry, hdr], by simp, fun d => ?_⟩
      by_cases hd : d = driver
      · simp [stagedEntry, hdr, hd]
      · simp [stagedEntry, hdr, hd, Ne.symm hd]
    · simp only [hdr, decide_false, Bool.false_eq_true, if_false, Option.map_eq_some_iff] at h
      obtain ⟨slot, hsl, rfl⟩ := h
      obtain ⟨he, hdri, hs⟩ := ih hsl
      refine ⟨by simpa [stagedEntry, hdr] using he, by simpa using hdri, fun d => ?_⟩
      by_cases hd : entry.driver = d
      · subst hd
        simp [stagedEntry, hdr]
      · simpa [stagedEntry, hd] using hs d

end Entries

section Lanes

inductive Lane
  | single (signal : SignalId)
  | driver (signal : SignalId) (driver : Option ProcessId)
  deriving DecidableEq, Repr

def Lane.signal : Lane → SignalId
  | .single signal => signal
  | .driver signal _ => signal

def slotOf (staging : Staging β) : Lane → Option (List β)
  | .single signal => staging.unresolvedScratch signal
  | .driver signal driver => stagedEntry (staging.driverScratch signal) driver

variable (design : Design β) (before : State β)

def laneAt (queue : List (PendingUpdate β)) (pending : PendingUpdate β) : Lane :=
  if (design.signal pending.signal).resolution = .none ∨
      pending.driver.any (RoutesTo design before queue pending.signal ·) = true
  then .single pending.signal else .driver pending.signal pending.driver

def lanes : List (PendingUpdate β) → List (PendingUpdate β) → List (Lane × PendingUpdate β)
  | _, [] => []
  | seen, pending :: queue =>
    (laneAt design before seen pending, pending) :: lanes (seen ++ [pending]) queue

def laned (queue : List (PendingUpdate β)) : List (Lane × PendingUpdate β) :=
  lanes design before [] queue

def laneStart : Lane → List β
  | .single signal =>
    if (design.signal signal).resolution = .none then before.driven signal
    else ((directDriver design before signal).map (·.value)).getD
      (design.signal signal).initialDriver
  | .driver signal driver =>
    (driverValue before signal driver).getD (design.signal signal).initialDriver

theorem lanes_concat (seen queue : List (PendingUpdate β)) (pending : PendingUpdate β) :
    lanes design before seen (queue ++ [pending]) =
      lanes design before seen queue ++
      [(laneAt design before (seen ++ queue) pending, pending)] := by
  induction queue generalizing seen with
  | nil => simp [lanes]
  | cons first queue ih => simp [lanes, ih]

theorem laned_concat (queue : List (PendingUpdate β)) (pending : PendingUpdate β) :
    laned design before (queue ++ [pending]) =
      laned design before queue ++ [(laneAt design before queue pending, pending)] :=
  lanes_concat design before [] queue pending

variable {design before}

theorem mem_laned {queue : List (PendingUpdate β)} {lane : Lane} {pending : PendingUpdate β} :
    (lane, pending) ∈ laned design before queue ↔
      ∃ seen rest, queue = seen ++ pending :: rest ∧
      lane = laneAt design before seen pending := by
  induction queue using reverseRecOn with
  | nil => simp [laned, lanes]
  | append_singleton queue last ih =>
    rw [laned_concat, mem_append, ih, mem_singleton]
    constructor
    · rintro (⟨seen, rest, rfl, hlane⟩ | hlast)
      · exact ⟨seen, rest ++ [last], by simp, hlane⟩
      · obtain ⟨rfl, rfl⟩ := Prod.mk.inj hlast
        exact ⟨queue, [], rfl, rfl⟩
    · rintro ⟨seen, rest, hqueue, rfl⟩
      rcases eq_nil_or_concat rest with rfl | ⟨rest, final, rfl⟩
      · obtain ⟨rfl, hlast⟩ := append_inj' hqueue rfl
        obtain rfl : last = pending := by simpa using hlast
        exact .inr rfl
      · rw [concat_eq_append, ← cons_append, ← append_assoc] at hqueue
        exact .inl ⟨seen, rest, (append_inj' hqueue rfl).1, rfl⟩

variable (design before)

def Lists (signals : List SignalId) (holds : SignalId → Prop) : Prop :=
  signals.Nodup ∧ ∀ s, s ∈ signals ↔ holds s

variable {signals : List SignalId} {holds ho' : SignalId → Prop}

theorem Lists.concat {s : SignalId} (h : Lists signals holds) (hs : ¬ holds s)
    (hh : ∀ t, ho' t ↔ t = s ∨ holds t) : Lists (signals ++ [s]) ho' := by
  refine ⟨?_, fun t => ?_⟩
  · rw [nodup_append]
    refine ⟨h.1, by simp, ?_⟩
    rintro t ht u hu rfl
    rw [mem_singleton] at hu
    exact hs (hu ▸ (h.2 t).mp ht)
  · rw [mem_append, mem_singleton, h.2, hh, or_comm]

theorem Lists.congr (h : Lists signals holds) (hh : ∀ t, ho' t ↔ holds t) : Lists signals ho' :=
  ⟨h.1, fun s => (h.2 s).trans (hh s).symm⟩

structure Shape (staging : Staging β) : Prop where
  unresolved : Lists staging.unresolvedSignals fun s =>
    (design.signal s).resolution = .none ∧ staging.unresolvedScratch s ≠ none
  direct : Lists staging.directSignals fun s =>
    (design.signal s).resolution ≠ .none ∧ staging.unresolvedScratch s ≠ none
  drivers : Lists staging.driverSignals fun s => staging.driverScratch s ≠ []
  resolved : Lists staging.resolvedSignals fun s => staging.driverScratch s ≠ []
  marked : ∀ s, staging.resolvedMarked s = true ↔ staging.driverScratch s ≠ []
  entries : ∀ s, ((staging.driverScratch s).map (·.driver)).Nodup
  index : ∀ s, ∀ index ∈ staging.driverIndex s, Indexed (staging.driverScratch s) index
  width : ∀ lane, ∀ value ∈ slotOf staging lane, value.length = design.width lane.signal

theorem shape_empty : Shape design (Staging.empty : Staging β) := by
  refine ⟨⟨nodup_nil, ?_⟩, ⟨nodup_nil, ?_⟩, ⟨nodup_nil, ?_⟩, ⟨nodup_nil, ?_⟩,
    ?_, ?_, ?_, ?_⟩
  all_goals try simp [Staging.empty]
  intro l value hv
  cases l <;> simp [slotOf, stagedEntry] at hv

end Lanes

section Steps

variable {design : Design β} {before state : State β} {stage : Staging β}
  {pending : PendingUpdate β}

def enqueueSingle (design : Design β) (signal : SignalId) (staging : Staging β) : Staging β :=
  if (design.signal signal).resolution = .none
  then { staging with unresolvedSignals := staging.unresolvedSignals ++ [signal] }
  else { staging with directSignals := staging.directSignals ++ [signal] }

variable {s : SignalId} {value : List β} {index : SignalId → Option (List (ℕ × ℕ))}
  {d : Option ProcessId}

section
variable {stage' : Staging β} {l : Lane}

theorem slotOf_single (hd : stage'.driverScratch = stage.driverScratch)
    (hu : stage'.unresolvedScratch = update stage.unresolvedScratch s (some value)) :
    slotOf stage' l = if l = .single s then some value else slotOf stage l := by
  cases l with
  | driver t e => simp [slotOf, hd]
  | single t => by_cases ht : t = s <;> simp [slotOf, hu, ht]

theorem slotOf_driver {staged : List (PendingDriverCommit β)}
    (hu : stage'.unresolvedScratch = stage.unresolvedScratch)
    (hd : stage'.driverScratch = update stage.driverScratch s staged)
    (he : ∀ e, stagedEntry staged e =
      if e = d then some value else stagedEntry (stage.driverScratch s) e) :
    slotOf stage' l = if l = .driver s d then some value else slotOf stage l := by
  cases l with
  | single t => simp [slotOf, hu]
  | driver t e =>
    by_cases ht : t = s
    · subst ht
      simp [slotOf, hd, he]
    · simp [slotOf, hd, ht]

variable (h : Shape design stage)
include h

theorem Shape.width_put (hv : value.length = design.width l.signal)
    (hs : ∀ k, slotOf stage' k = if k = l then some value else slotOf stage k) (k : Lane) :
    ∀ found ∈ slotOf stage' k, found.length = design.width k.signal := by
  intro found hf
  rw [hs] at hf
  split_ifs at hf with hk
  · rw [← Option.some.inj hf, hk, hv]
  · exact h.width k found hf

theorem Shape.single (hv : value.length = design.width s) : Shape design
      { (if (stage.unresolvedScratch s).isNone then enqueueSingle design s stage else stage) with
        unresolvedScratch := update stage.unresolvedScratch s (some value) } := by
  have hs : ∀ t, update stage.unresolvedScratch s (some value) t ≠ none ↔
      t = s ∨ stage.unresolvedScratch t ≠ none := by
    intro t
    by_cases ht : t = s <;> simp [ht]
  have hw := @Shape.width_put _ _ _ _ { stage with
    unresolvedScratch := update stage.unresolvedScratch s (some value) } (.single s) h hv
      fun _ => slotOf_single rfl rfl
  cases hfr : stage.unresolvedScratch s with
  | some old =>
    have hk : ∀ t, (t = s ∨ stage.unresolvedScratch t ≠ none) ↔
        stage.unresolvedScratch t ≠ none :=
      fun t => or_iff_right_of_imp fun ht => by simp [ht, hfr]
    exact ⟨h.unresolved.congr fun t => by rw [hs, hk],
      h.direct.congr fun t => by rw [hs, hk], h.drivers, h.resolved, h.marked, h.entries,
      h.index, hw⟩
  | none =>
    by_cases hn : (design.signal s).resolution = .none
    · simp only [enqueueSingle, hn]
      refine ⟨h.unresolved.concat (s := s) (by simp [hfr]) fun t => ?_, h.direct.congr fun t =>
        ?_, h.drivers, h.resolved, h.marked, h.entries, h.index, hw⟩
      · by_cases ht : t = s <;> simp [ht, hn]
      · by_cases ht : t = s <;> simp [ht, hn]
    · simp only [enqueueSingle, hn]
      refine ⟨h.unresolved.congr fun t => ?_, h.direct.concat (s := s) (by simp [hfr]) fun t =>
        ?_, h.drivers, h.resolved, h.marked, h.entries, h.index, hw⟩
      · by_cases ht : t = s <;> simp [ht, hn]
      · by_cases ht : t = s <;> simp [ht, hn]

theorem Shape.entry {staged : List (PendingDriverCommit β)} {signals : List SignalId}
    (hse : ∀ e, stagedEntry staged e =
      if e = d then some value else stagedEntry (stage.driverScratch s) e)
    (hv : value.length = design.width s) (he : (staged.map (·.driver)).Nodup)
    (hsi : Lists signals fun t => t = s ∨ stage.driverScratch t ≠ [])
    (hin : ∀ t, ∀ found ∈ index t, Indexed (update stage.driverScratch s staged t) found) :
    Shape design (markResolved { stage with
      driverScratch := update stage.driverScratch s staged
      driverSignals := signals
      driverIndex := index } s) := by
  have hst : staged ≠ [] := by
    rintro rfl
    simpa [stagedEntry] using hse d
  have hs : ∀ t, update stage.driverScratch s staged t ≠ [] ↔
      t = s ∨ stage.driverScratch t ≠ [] := by
    intro t
    by_cases ht : t = s <;> simp [ht, hst]
  have he' : ∀ t, ((update stage.driverScratch s staged t).map (·.driver)).Nodup := by
    intro t
    by_cases ht : t = s
    · simpa [ht] using he
    · simpa [ht] using h.entries t
  have hsl := @Shape.width_put _ _ _ _ { stage with
    driverScratch := update stage.driverScratch s staged } (.driver s d) h hv
      fun _ => slotOf_driver rfl rfl hse
  cases hm : stage.resolvedMarked s with
  | true =>
    have hk : ∀ t, (t = s ∨ stage.driverScratch t ≠ []) ↔ stage.driverScratch t ≠ [] :=
      fun t => or_iff_right_of_imp fun ht => ht ▸ (h.marked s).mp hm
    simp only [markResolved, hm, if_true]
    exact ⟨h.unresolved, h.direct, hsi.congr hs, h.resolved.congr fun t => by rw [hs, hk],
      fun t => by rw [hs, hk]; exact h.marked t, he', hin, hsl⟩
  | false =>
    have hem : ¬ stage.driverScratch s ≠ [] := fun hn => by
      simp [(h.marked s).mpr hn] at hm
    simp only [markResolved, hm, Bool.false_eq_true, if_false]
    refine ⟨h.unresolved, h.direct, hsi.congr hs,
      h.resolved.concat hem hs, fun t => ?_, he', hin, hsl⟩
    rw [hs]
    by_cases ht : t = s
    · simp [ht]
    · simpa [ht] using h.marked t

theorem findStaged_spec (s : SignalId) (d : Option ProcessId) :
    ∃ index, findStaged stage s d = ({ stage with driverIndex := index },
        (stage.driverScratch s).findIdx? (·.driver = d)) ∧
      ∀ t, ∀ found ∈ index t, Indexed (stage.driverScratch t) found := by
  unfold findStaged
  by_cases hfe : (stage.driverScratch s).length < 16
  · simp only [hfe]
    exact ⟨stage.driverIndex, rfl, h.index⟩
  · simp only [hfe]
    set index := (stage.driverIndex s).getD []
    have hi : Indexed (stage.driverScratch s) index := by
      cases hin : stage.driverIndex s with
      | none => exact ⟨0, Nat.zero_le _, by simp [index, hin, indexOf]⟩
      | some found => simpa [index, hin] using h.index s found hin
    have hfu : (if index.length ≠ (stage.driverScratch s).length
        then buildIndex (stage.driverScratch s) else index) = indexOf (stage.driverScratch s) := by
      split_ifs with hl
      · exact buildIndex_eq (h.entries s)
      · exact hi.full (not_not.mp hl)
    rw [hfu, find_indexOf]
    refine ⟨_, rfl, fun t found hf => ?_⟩
    by_cases ht : t = s
    · subst ht
      obtain rfl : indexOf (stage.driverScratch t) = found := by simpa using hf
      exact indexed_self
    · exact h.index t found (by simpa [ht] using hf)

theorem Shape.push {entry : PendingDriverCommit β}
    (hnw : stagedEntry (stage.driverScratch s) entry.driver = none)
    (hv : entry.value.length = design.width s) :
    Shape design (markResolved (pushStaged stage s entry) s) := by
  have hno := stagedEntry_eq_none.mp hnw
  refine h.entry (fun _ => stagedEntry_concat hnw) hv ?_ ?_ ?_
  · rw [map_append, nodup_append]
    refine ⟨h.entries s, by simp, fun d hd e he => ?_⟩
    rw [map_singleton, mem_singleton] at he
    rintro rfl
    exact hno (he ▸ hd)
  · cases hem : (stage.driverScratch s).isEmpty with
    | true =>
      have hn : stage.driverScratch s = [] := isEmpty_iff.mp hem
      simpa [hem] using h.drivers.concat (by simp [hn]) fun t => Iff.rfl
    | false =>
      have hne : stage.driverScratch s ≠ [] := fun hn => by simp [hn] at hem
      exact h.drivers.congr fun t => or_iff_right_of_imp fun ht => ht ▸ hne
  · intro t found hf
    by_cases ht : t = s
    · subst ht
      rw [update_self]
      cases hin : stage.driverIndex t with
      | none => simp [hin] at hf
      | some index =>
        have hind := h.index t index hin
        by_cases hl : index.length = (stage.driverScratch t).length
        · simp only [hin, hind.full hl, length_indexOf, if_true, update_self,
            emplace_indexOf hno, Option.mem_def, Option.some.injEq] at hf
          exact hf ▸ indexed_self
        · obtain rfl : index = found := by simpa [hin, hl] using hf
          exact hind.concat
    · rw [update_of_ne ht]
      refine h.index t found ?_
      revert hf
      cases stage.driverIndex s with
      | none => exact id
      | some index =>
        by_cases hl : index.length = (stage.driverScratch s).length <;> simp [hl, ht]

theorem Shape.modify {slot : ℕ}
    (hin : ∀ t, ∀ found ∈ index t, Indexed (stage.driverScratch t) found)
    (hfi : (stage.driverScratch s).findIdx? (·.driver = d) = some slot)
    (hv : value.length = design.width s) :
    Shape design (markResolved { stage with
      driverScratch := update stage.driverScratch s
        ((stage.driverScratch s).modify slot fun entry => { entry with value })
      driverIndex := index } s) := by
  obtain ⟨_, hd, hen⟩ := stagedEntry_modify hfi value
  have hne : stage.driverScratch s ≠ [] := fun hn => by simp [hn] at hfi
  refine h.entry hen hv ?_ ?_ ?_
  · rw [hd]
    exact h.entries s
  · exact h.drivers.congr fun t => or_iff_right_of_imp fun ht => ht ▸ hne
  · intro t found hf
    by_cases ht : t = s
    · subst ht
      rw [update_self]
      exact (hin t found hf).congr hd
    · rw [update_of_ne ht]
      exact hin t found hf

end

theorem Opened.startSlot {queue : List (PendingUpdate β)} (h : Opened design before queue state)
    (hresolved : (design.signal pending.signal).resolution ≠ .none)
    (hfirst : driverValue state pending.signal pending.driver = none →
      updatesOf queue pending.signal pending.driver = []) :
    Opened design before (queue ++ [pending]) (startSlot design state pending).1 ∧
      (pending.offset ≠ none → (UpdateCommit.startSlot design state pending).2 =
        (driverValue before pending.signal pending.driver).getD
          (design.signal pending.signal).initialDriver) := by
  have hnew : pending.offset ≠ none →
      driverValue state pending.signal pending.driver = none →
      IsFirstSlice design before queue pending := fun hslice hnone =>
    ⟨hresolved, (h.value_none.mp hnone).1, hfirst hnone, hslice⟩
  have hkept : driverValue state pending.signal pending.driver ≠ none →
      Opened design before (queue ++ [pending]) state := fun hvalue => by
    refine h.congr (opens_concat_kept fun hslice => hvalue ?_)
    exact h.value_none.mpr ⟨hslice.2.1, by simp [Opens, hslice.2.2.1]⟩
  unfold UpdateCommit.startSlot
  cases hoffset : pending.offset with
  | none =>
    refine ⟨h.congr (opens_concat_kept fun hslice => hslice.2.2.2 hoffset), ?_⟩
    exact fun hne => absurd rfl hne
  | some offset =>
    have hslice : pending.offset ≠ none := by simp [hoffset]
    rw [← h.getD]
    cases hdriver : pending.driver with
    | none =>
      rw [hdriver] at hnew hkept
      cases hexternal : state.external pending.signal with
      | some value =>
        simp only [UpdateCommit.externalDriverSlot, hexternal, driverValue]
        exact ⟨hkept (by simp [driverValue, hexternal]), fun _ => rfl⟩
      | none =>
        refine ⟨h.externalDriverSlot (opens_concat_new (hnew hslice hexternal)) hdriver hexternal,
          ?_⟩
        simp [UpdateCommit.externalDriverSlot, hexternal, driverValue]
    | some p =>
      rw [hdriver] at hnew hkept
      cases hfound : findDriver (state.drivers pending.signal) p with
      | some r =>
        dsimp only
        rw [driverSlot_found hfound]
        exact ⟨hkept (by simp [driverValue, hfound]), fun _ => by simp [driverValue, hfound]⟩
      | none =>
        have hnone : driverValue state pending.signal (some p) = none := by
          simp [driverValue, hfound]
        refine ⟨h.driverSlot (opens_concat_new (hnew hslice hnone)) hdriver hnone, ?_⟩
        dsimp only
        rw [driverSlot_new hfound]
        simp [driverValue, hfound]

structure Staged (design : Design β) (before : State β) (queue : List (PendingUpdate β))
    (staged : State β × Staging β) : Prop where
  opened : Opened design before queue staged.1
  slots : ∀ lane, slotOf staged.2 lane = accumulated Prod.fst (laneStart design before)
    (fun value item => applied value item.2) (laned design before queue) lane
  shape : Shape design staged.2

variable {q : List (PendingUpdate β)}

theorem slotOf_markResolved (stage : Staging β) (s : SignalId) (l : Lane) :
    slotOf (markResolved stage s) l = slotOf stage l := by
  unfold markResolved
  split_ifs <;> cases l <;> rfl

theorem laneAt_signal (design : Design β) (before : State β) (q : List (PendingUpdate β))
    (pending : PendingUpdate β) :
    (laneAt design before q pending).signal = pending.signal := by
  unfold laneAt
  split_ifs <;> rfl

theorem laneAt_driver {seen : List (PendingUpdate β)}
    (h : laneAt design before seen pending = .driver s d) :
    pending.signal = s ∧ pending.driver = d ∧ (design.signal s).resolution ≠ .none := by
  unfold laneAt at h
  split_ifs at h with hlane
  obtain ⟨rfl, rfl⟩ := Lane.driver.inj h
  exact ⟨rfl, rfl, fun hnone => hlane (.inl hnone)⟩

theorem laneAt_single {seen : List (PendingUpdate β)}
    (hresolved : (design.signal s).resolution ≠ .none)
    (h : laneAt design before seen pending = .single s) :
    pending.signal = s ∧ ∃ p, pending.driver = some p ∧ RoutesTo design before seen s p := by
  unfold laneAt at h
  split_ifs at h with hlane
  obtain rfl : pending.signal = s := Lane.single.inj h
  refine ⟨rfl, ?_⟩
  simpa [Option.any_eq_true] using hlane.resolve_left hresolved

theorem mem_updatesOf {other : PendingUpdate β} :
    other ∈ updatesOf q s d ↔ other ∈ q ∧ other.signal = s ∧ other.driver = d := by
  simp [updatesOf]

section
variable (h : Staged design before q (state, stage))
include h

theorem Staged.slot_eq_none {lane : Lane} :
    slotOf stage lane = none ↔ ∀ item ∈ laned design before q, item.1 ≠ lane := by
  rw [h.slots, accumulated_eq_none]

/-- A driver without a value and without an entry in the list has no update in the queue. -/
theorem Staged.first_of_slot_none (hresolved : (design.signal s).resolution ≠ .none)
    (hslot : slotOf stage (.driver s d) = none) (hvalue : driverValue state s d = none) :
    updatesOf q s d = [] := by
  obtain ⟨hbefore, hclosed⟩ := h.opened.value_none.mp hvalue
  refine eq_nil_iff_forall_not_mem.mpr fun other hother => ?_
  obtain ⟨hmem, rfl, rfl⟩ := mem_updatesOf.mp hother
  obtain ⟨seen, rest, rfl⟩ := append_of_mem hmem
  refine h.slot_eq_none.mp hslot _ (mem_laned.mpr ⟨seen, rest, rfl, rfl⟩) ?_
  unfold laneAt
  rw [if_neg]
  rintro (hnone | hroute)
  · exact hresolved hnone
  · obtain ⟨p, hp, hroutes⟩ : ∃ p, other.driver = some p ∧
        RoutesTo design before seen other.signal p := by
      simpa [Option.any_eq_true] using hroute
    rw [hp] at hbefore hclosed
    rcases (routesTo_iff.mp hroutes).1 with hdirect | ⟨-, hopens, -⟩
    · exact driverValue_of_directDriver hdirect hbefore
    · exact hclosed (hopens.append _)

theorem Staged.updates_of_slot (hslot : slotOf stage (.driver s d) ≠ none) :
    updatesOf q s d ≠ [] := fun hnil => hslot <| h.slot_eq_none.mpr fun item hitem hlane => by
  obtain ⟨seen, rest, rfl, hat⟩ := mem_laned.mp hitem
  obtain ⟨hsignal, hdriver, -⟩ := laneAt_driver (hat.symm.trans hlane)
  have hmem : item.2 ∈ updatesOf (seen ++ item.2 :: rest) s d :=
    mem_updatesOf.mpr ⟨by simp, hsignal, hdriver⟩
  simp [hnil] at hmem

end

theorem Staged.single (stored : List β) (enqueue : Staging β → Staging β)
    (h : Staged design before q (state, stage)) (hf : Fits design pending)
    (hkept : ¬ IsFirstSlice design before q pending)
    (hl : laneAt design before q pending = .single pending.signal)
    (hsta : laneStart design before (.single pending.signal) = stored)
    (hst : stored.length = design.width pending.signal)
    (he : enqueue stage = enqueueSingle design pending.signal stage) :
    ∃ stage', stageSingle stage pending stored enqueue = .ok stage' ∧
      Staged design before (q ++ [pending]) (state, stage') := by
  set s := pending.signal with hs
  set base := (stage.unresolvedScratch s).getD stored
  have hb : base.length = design.width s := by
    cases hsl : stage.unresolvedScratch s with
    | none => simpa [base, hsl] using hst
    | some value =>
      have := h.shape.width (.single s) value hsl
      simpa [base, hsl, Lane.signal] using this
  have hle := length_applied hf fun _ => hb
  have hsc : (if (stage.unresolvedScratch s).isNone then enqueueSingle design s stage
      else stage).unresolvedScratch = stage.unresolvedScratch := by
    unfold enqueueSingle
    split_ifs <;> rfl
  refine ⟨{ (if (stage.unresolvedScratch s).isNone then enqueueSingle design s stage
      else stage) with
      unresolvedScratch := update stage.unresolvedScratch s (some (applied base pending)) },
    ?_, h.opened.congr (opens_concat_kept hkept), ?_, h.shape.single hle⟩
  · rw [stageSingle, applyPending_ok hf fun _ => hb]
    show Except.ok _ = Except.ok _
    rw [he, hsc]
  · rw [laned_concat]
    refine accumulated_step h.slots (by rw [hl, hsta]) fun l => ?_
    rw [hl]
    refine slotOf_single ?_ rfl
    unfold enqueueSingle
    split_ifs <;> rfl

theorem RoutesTo.laneStart (hbefore : Valid design before)
    (hresolved : (design.signal s).resolution ≠ .none) {p : ProcessId}
    (h : RoutesTo design before q s p) : laneStart design before (.single s) =
      (driverValue before s (some p)).getD (design.signal s).initialDriver := by
  simp only [UpdateCommit.laneStart, hresolved, if_false]
  rcases h.1 with hdirect | ⟨hopen, -, -⟩
  · obtain ⟨r, hr, hp⟩ : ∃ r, directDriver design before s = some r ∧ r.process = p := by
      simpa [Option.any_eq_true] using hdirect
    have hdrivers := (directDriver_spec hbefore hr).1
    simp [hr, driverValue, hdrivers, findDriver, hp]
  · simp only [canOpenRoute, Bool.and_eq_true, List.isEmpty_iff] at hopen
    cases hroute : before.route s <;>
      simp [directDriver, directSingleDriverRecord, driverValue, hopen.2, findDriver, hroute]

theorem RoutesTo.not_first {p : ProcessId} (h : RoutesTo design before q pending.signal p)
    (hp : pending.driver = some p) : ¬ IsFirstSlice design before q pending := by
  rintro ⟨-, hnone, hfirst, -⟩
  rw [hp] at hnone hfirst
  rcases h.1 with hdirect | ⟨-, hopens, -⟩
  · exact driverValue_of_directDriver hdirect hnone
  · simp [Opens, hfirst] at hopens

theorem laneAt_first (h : IsFirstSlice design before q pending) :
    laneAt design before q pending = .driver pending.signal pending.driver := by
  rw [laneAt, if_neg]
  rintro (hnone | hroute)
  · exact h.1 hnone
  · obtain ⟨p, hp, hroutes⟩ : ∃ p, pending.driver = some p ∧
        RoutesTo design before q pending.signal p := by
      simpa [Option.any_eq_true] using hroute
    exact hroutes.not_first hp h

theorem Staged.driver (h : Staged design before q (state, stage)) (hbe : Valid design before)
    (hf : Fits design pending) (hr : (design.signal pending.signal).resolution ≠ .none)
    (hl : laneAt design before q pending = .driver pending.signal pending.driver) :
    ∃ s', stageDriver design state stage pending = .ok s' ∧
      Staged design before (q ++ [pending]) s' := by
  obtain ⟨index, hfi, hind⟩ := findStaged_spec h.shape pending.signal pending.driver
  have hsta : (laneStart design before (laneAt design before q pending)).length =
      design.width pending.signal := by
    rw [hl, laneStart]
    cases hv : driverValue before pending.signal pending.driver with
    | none => rfl
    | some value => exact driverValue_width hbe hv
  simp only [stageDriver, hfi]
  cases hs : (stage.driverScratch pending.signal).findIdx? (·.driver = pending.driver) with
  | some slot =>
    obtain ⟨hen, _, _⟩ := stagedEntry_modify hs []
    obtain ⟨base, hb⟩ : ∃ base,
        stagedEntry (stage.driverScratch pending.signal) pending.driver = some base := by
      refine Option.ne_none_iff_exists'.mp fun hno => ?_
      simp [findIdx_eq_none.mpr hno] at hs
    have hw := h.shape.width (.driver pending.signal pending.driver) base hb
    have hle := length_applied hf fun _ => hw
    obtain ⟨_, _, he⟩ := stagedEntry_modify hs (applied base pending)
    have hkept : ¬ IsFirstSlice design before q pending := fun hslice =>
      h.updates_of_slot (by simp [slotOf, hb]) hslice.2.2.1
    simp only [hen, hb, Option.getD_some, applyPending_ok hf fun _ => hw]
    refine ⟨_, rfl, h.opened.congr (opens_concat_kept hkept), ?_, h.shape.modify hind hs hle⟩
    rw [laned_concat]
    refine accumulated_step (v := applied base pending) h.slots (by simp [hl, slotOf, hb])
      fun l => ?_
    rw [hl, slotOf_markResolved]
    exact slotOf_driver rfl rfl he
  | none =>
    have hnw := findIdx_eq_none.mp hs
    obtain ⟨hfo, hin⟩ := h.opened.startSlot hr (h.first_of_slot_none hr hnw)
    set initial := (startSlot design state pending).2
    have hw : pending.offset ≠ none → initial.length = design.width pending.signal :=
      fun hsl => by
      rw [hin hsl]
      rwa [hl] at hsta
    have ha : applied initial pending =
        applied (laneStart design before (.driver pending.signal pending.driver)) pending := by
      cases ho : pending.offset with
      | none => simp [applied, ho]
      | some o => rw [hin (by simp [ho]), laneStart]
    simp only [applyPending_ok hf hw]
    have hsh : Shape design { stage with driverIndex := index } := { h.shape with index := hind }
    refine ⟨_, rfl, hfo, ?_, hsh.push hnw (length_applied hf hw)⟩
    rw [laned_concat]
    refine accumulated_step h.slots (ha.trans (by simp [hl, slotOf, hnw])) fun l => ?_
    rw [hl, slotOf_markResolved]
    exact slotOf_driver rfl rfl fun _ => stagedEntry_concat hnw

theorem Staged.update (h : Staged design before q (state, stage)) (hb : Valid design before)
    (hf : Fits design pending) : ∃ s', stageUpdate design (state, stage) pending = .ok s' ∧
      Staged design before (q ++ [pending]) s' := by
  by_cases hn : (design.signal pending.signal).resolution = .none
  · obtain ⟨stage', hsta, hst⟩ := h.single (before.driven pending.signal)
      (fun stage =>
        { stage with unresolvedSignals := stage.unresolvedSignals ++ [pending.signal] })
      hf (fun hslice => hslice.1 hn) (by simp [laneAt, hn]) (by simp [laneStart, hn])
      (hb.driven_width _) (by simp [enqueueSingle, hn])
    refine ⟨(state, stage'), ?_, hst⟩
    have hd : state.driven = before.driven := h.opened.driven
    simp only [stageUpdate, hn, hd]
    rw [hsta]
    rfl
  · have hroute := h.opened.route pending.signal
    have hr := directSingleDriver_eq design state pending
    cases hs : directSingleDriver design state pending with
    | some r =>
      rw [hs, eq_comm, Option.filter_eq_some_iff] at hr
      obtain ⟨hdirect, hp⟩ := hr
      have hp : pending.driver = some r.process := by simpa using hp
      have hroutes : RoutesTo design before q pending.signal r.process :=
        (hroute _).mp (by simp [hdirect])
      have hdrivers : state.drivers pending.signal = [r] :=
        (directDriver_spec h.opened.valid hdirect).1
      have hvalue : driverValue state pending.signal (some r.process) = some r.value := by
        simp [driverValue, hdrivers, findDriver]
      have hstart : laneStart design before (.single pending.signal) = r.value := by
        rw [hroutes.laneStart hb hn, ← h.opened.getD, hvalue]
        rfl
      obtain ⟨stage', hsta, hst⟩ := h.single r.value
        (fun stage =>
          { stage with directSignals := stage.directSignals ++ [pending.signal] })
        hf (hroutes.not_first hp) (by simp [laneAt, hp, hroutes]) hstart
        (h.opened.valid.driver_width _ r (by simp [hdrivers])) (by simp [enqueueSingle, hn])
      refine ⟨(state, stage'), ?_, hst⟩
      simp only [stageUpdate, hn, hs]
      rw [hsta]
      rfl
    | none =>
      have hl : laneAt design before q pending = .driver pending.signal pending.driver := by
        rw [hs, eq_comm, Option.filter_eq_none_iff] at hr
        rw [laneAt, if_neg]
        rintro (hnone | hany)
        · exact hn hnone
        · obtain ⟨p, hp, hroutes⟩ : ∃ p, pending.driver = some p ∧
              RoutesTo design before q pending.signal p := by
            simpa [Option.any_eq_true] using hany
          obtain ⟨r, hdirect, hprocess⟩ : ∃ r,
              directDriver design state pending.signal = some r ∧ r.process = p := by
            simpa [Option.any_eq_true] using (hroute p).mpr hroutes
          exact hr r hdirect (by simp [hp, hprocess])
      simp only [stageUpdate, hn, hs]
      exact h.driver hb hf hn hl

theorem stage_queue (hb : Valid design before) (q : List (PendingUpdate β))
    (hf : ∀ pending ∈ q, Fits design pending) :
    ∃ staged, q.foldlM (stageUpdate design) (before, .empty) = .ok staged ∧
      Staged design before q staged := by
  induction q using reverseRecOn with
  | nil =>
    refine ⟨_, rfl, opened_nil hb, fun l => ?_, shape_empty design⟩
    cases l <;> rfl
  | append_singleton q pending ih =>
    obtain ⟨⟨state, stage⟩, hfo, hst⟩ := ih fun o h => hf o (by simp [h])
    obtain ⟨s', hste, hs'⟩ := hst.update hb (hf pending (by simp))
    refine ⟨s', ?_, hs'⟩
    rw [foldlM_append, hfo]
    show ([pending].foldlM (stageUpdate design) (state, stage)) = _
    rw [foldlM_cons, hste]
    rfl

end Steps

end FsimRuntime.UpdateCommit

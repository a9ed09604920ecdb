import FsimRuntime.UpdateCommitModel

/-!
# Driver slots during staging

Staging a slice may give a driver its first value, which opens or closes the
direct route of the signal. Which drivers a queue opens, and which updates
take the direct route behind it, is read off the queue.
-/

namespace FsimRuntime.UpdateCommit
open UpdateCommit Function List

variable {β : Type}

section Records

variable {r : DriverRecord β} {records : List (DriverRecord β)} {p q : ProcessId}

theorem findDriver_insertRecord (h : findDriver records r.process = none) :
    findDriver (insertRecord r records) p = if r.process = p then some r
      else findDriver records p := by
  induction records with
  | nil => by_cases hp : r.process = p <;> simp [insertRecord, findDriver]
  | cons o records ih =>
    have hn : o.process ≠ r.process := by
      intro he
      simp [findDriver, he] at h
    have hr : findDriver records r.process = none := by simpa [findDriver, hn] using h
    rw [insertRecord]
    split_ifs with hl hp hp
    · simp [findDriver, hp]
    · simp [findDriver, hp]
    · subst hp
      simpa [findDriver, hn] using ih hr
    · by_cases ho : o.process = p
      · simp [findDriver, ho]
      · simpa [findDriver, ho, hp] using ih hr

theorem mem_insertRecord {o : DriverRecord β} : o ∈ insertRecord r records ↔ o = r ∨
    o ∈ records := by
  induction records with
  | nil => simp [insertRecord]
  | cons head records ih =>
    rw [insertRecord]
    split_ifs
    · simp
    · simp only [mem_cons, ih]
      constructor
      · rintro (h | h | h)
        · exact .inr (.inl h)
        · exact .inl h
        · exact .inr (.inr h)
      · rintro (h | h | h)
        · exact .inr (.inl h)
        · exact .inl h
        · exact .inr (.inr h)

theorem length_insertRecord : (insertRecord r records).length = records.length + 1 := by
  induction records with
  | nil => rfl
  | cons head records ih =>
    rw [insertRecord]
    split_ifs <;> simp [ih]

theorem findDriver_setRecord {value : List β} : findDriver (setRecord records p value) q =
      if q = p then (findDriver records p).map fun r => { r with value }
      else findDriver records q := by
  induction records with
  | nil => simp [setRecord, findDriver]
  | cons head records ih =>
    simp only [setRecord, findDriver, find?_cons] at ih ⊢
    by_cases hh : head.process = p
    · by_cases hq : q = p
      · simp [hh, hq]
      · simp [hh, hq, Ne.symm hq, ih]
    · by_cases hq : q = p
      · subst hq
        simp [hh, ih]
      · by_cases hhe : head.process = q
        · simp [hhe, hq]
        · simp [hh, hhe, ih]

end Records

section Values

def applied (value : List β) (pending : PendingUpdate β) : List β :=
  match pending.offset with
  | none => pending.value
  | some offset =>
    value.take offset ++ pending.value ++ value.drop (offset + pending.value.length)

variable (design : Design β)

structure Fits (pending : PendingUpdate β) : Prop where
  signal : pending.signal < design.signalCount
  value : match pending.offset with
    | none => pending.value.length = design.width pending.signal
    | some offset => 0 < pending.value.length ∧
        offset + pending.value.length ≤ design.width pending.signal

variable {design} {pending : PendingUpdate β} {value : List β}

section
variable (h : Fits design pending)
  (hv : pending.offset ≠ none → value.length = design.width pending.signal)
include h hv

theorem applyPending_ok : applyPending value pending = .ok (applied value pending) := by
  have hf := h.value
  cases ho : pending.offset with
  | none => simp [applyPending, applied, ho, pure, Except.pure]
  | some o =>
    rw [ho] at hf
    have hl := hv (by simp [ho])
    have hop : (decide (pending.value.length = 0) || decide (value.length < o) ||
        decide (value.length - o < pending.value.length)) = false := by
      simp only [Bool.or_eq_false_iff, decide_eq_false_iff_not]
      omega
    simp only [applyPending, applied, ho, insertBits, hop]
    rfl

theorem length_applied : (applied value pending).length = design.width pending.signal := by
  have hf := h.value
  cases ho : pending.offset with
  | none => simpa [applied, ho] using hf
  | some o =>
    rw [ho] at hf
    have hl := hv (by simp [ho])
    simp only [applied, ho, length_append, length_take, length_drop]
    omega

end

end Values

section States

variable (design : Design β)

def driverValue (state : State β) (signal : SignalId) : Option ProcessId → Option (List β)
  | some process => (findDriver (state.drivers signal) process).map (·.value)
  | none => state.external signal

/-- A signal on which the direct route is not ruled out for good. -/
def eligible (signal : Signal β) : Bool :=
  identitySingleDriver signal && !signal.hasImplicitDriver && !signal.hasChargeStrength
    && !signal.forced && !signal.driversForced

/-- What the interpreter keeps between commits. -/
structure Valid (state : State β) : Prop where
  route : ∀ s p, state.route s = some p → eligible (design.signal s) = true ∧
    ∃ record, state.drivers s = [record] ∧ record.process = p ∧
    record.defaultStrength = true ∧
      record.scalarRegions = false
  driver_width : ∀ s, ∀ record ∈ state.drivers s, record.value.length = design.width s
  external_width : ∀ s, ∀ value ∈ state.external s, value.length = design.width s
  driven_width : ∀ s, (state.driven s).length = design.width s

def directDriver (state : State β) (signal : SignalId) : Option (DriverRecord β) :=
  (directSingleDriverRecord state signal).filter fun record =>
    record.value.length ≤ 64 && (state.external signal).isNone
      && !(design.signal signal).driversForced

/-- A signal without drivers whose first one gets the direct route. -/
def canOpenRoute (state : State β) (signal : SignalId) : Bool :=
  eligible (design.signal signal) && design.width signal ≤ 64 && (state.external signal).isNone &&
    (state.drivers signal).isEmpty

variable {design} {state state' : State β} {signal : SignalId}

theorem directSingleDriver_eq (design : Design β) (state : State β) (pending : PendingUpdate β) :
    directSingleDriver design state pending =
      (directDriver design state pending.signal).filter fun r =>
        pending.driver = some r.process := by
  rw [directSingleDriver, directDriver, Option.filter_filter]
  congr 1
  funext r
  cases decide (r.value.length ≤ 64) <;> cases (state.external pending.signal).isNone <;>
    cases (design.signal pending.signal).driversForced <;> simp

theorem directDriver_spec {r : DriverRecord β} (hv : Valid design state)
    (h : directDriver design state signal = some r) :
    state.drivers signal = [r] ∧ state.external signal = none ∧
      eligible (design.signal signal) = true ∧ design.width signal ≤ 64 ∧
      r.defaultStrength = true ∧ r.scalarRegions = false := by
  rw [directDriver, Option.filter_eq_some_iff] at h
  obtain ⟨hre, ho⟩ := h
  obtain ⟨p, hro, hf⟩ := Option.bind_eq_some_iff.mp hre
  obtain ⟨he, sole, hd, hp, hs, hr⟩ := hv.route signal p hro
  have hsa : sole = r := by
    rw [hd] at hf
    simpa [findDriver, hp] using hf
  subst hsa
  simp only [Bool.and_eq_true, decide_eq_true_eq, Option.isNone_iff_eq_none] at ho
  have hw := hv.driver_width signal sole (by simp [hd])
  exact ⟨hd, ho.1.2, he, hw ▸ ho.1.1, hs, hr⟩

theorem driverValue_width (h : Valid design state) {s : SignalId} {d : Option ProcessId}
    {value : List β} (hv : driverValue state s d = some value) :
    value.length = design.width s := by
  cases d with
  | none => exact h.external_width s value hv
  | some p =>
    obtain ⟨r, hf, rfl⟩ := Option.map_eq_some_iff.mp hv
    exact h.driver_width s r (mem_of_find?_eq_some hf)

end States

section Slots

variable {design : Design β} {b state : State β} {s : SignalId} {p : ProcessId}

theorem directRoute_some (h : directRoute design state s = some p) :
    eligible (design.signal s) = true ∧ ∃ r, state.drivers s = [r] ∧ r.process = p ∧
      r.defaultStrength = true ∧ r.scalarRegions = false := by
  unfold directRoute at h
  split at h
  · next r hd =>
    simp only [Option.ite_none_right_eq_some, Bool.and_eq_true, Bool.not_eq_true',
      Option.some.injEq] at h
    obtain ⟨⟨⟨⟨⟨⟨⟨⟨hid, him⟩, hc⟩, _⟩, hf⟩, hdr⟩, hs⟩, hr⟩, hp⟩ := h
    exact ⟨by simp [eligible, hid, him, hc, hf, hdr], r, hd, hp, hs, hr⟩
  · simp at h

theorem Valid.refreshRoute {records : List (DriverRecord β)} {external : Option (List β)}
    (h : Valid design state) (hrc : ∀ r ∈ records, r.value.length = design.width s)
    (he : ∀ value ∈ external, value.length = design.width s) :
    Valid design (refreshRoute design { state with
      drivers := update state.drivers s records
      external := update state.external s external } s) where
  route := by
    intro t p hr
    by_cases ht : t = s
    · subst ht
      simp only [refreshRoute, update_self] at hr
      simpa [refreshRoute] using directRoute_some hr
    · simp only [UpdateCommit.refreshRoute, update_of_ne ht] at hr ⊢
      exact h.route t p hr
  driver_width := by
    intro t r hre
    by_cases ht : t = s
    · subst ht
      exact hrc r (by simpa [refreshRoute] using hre)
    · exact h.driver_width t r (by simpa [UpdateCommit.refreshRoute, ht] using hre)
  external_width := by
    intro t value hv
    by_cases ht : t = s
    · subst ht
      exact he value (by simpa [refreshRoute] using hv)
    · exact h.external_width t value (by simpa [UpdateCommit.refreshRoute, ht] using hv)
  driven_width := h.driven_width

theorem driverSlot_found {r : DriverRecord β} (h : findDriver (state.drivers s) p = some r) :
    driverSlot design state p s = (state, r.value) := by simp [driverSlot, h]

theorem driverSlot_new (h : findDriver (state.drivers s) p = none) :
    driverSlot design state p s = (refreshRoute design { state with
      drivers := update state.drivers s
        (insertRecord ⟨p, (design.signal s).initialDriver, design.defaultStrength p, false⟩
          (state.drivers s))
      external := update state.external s (state.external s) } s,
      (design.signal s).initialDriver) := by simp [driverSlot, h]

end Slots

section Openings

variable (design : Design β) (before : State β)

variable (queue : List (PendingUpdate β))

def updatesOf (s : SignalId) (d : Option ProcessId) : List (PendingUpdate β) :=
  queue.filter fun pending => pending.signal = s ∧ pending.driver = d

/-- Staging the queue gives the driver its first value, as its first update is a slice. -/
def Opens (s : SignalId) (d : Option ProcessId) : Prop :=
  (design.signal s).resolution ≠ .none ∧ (driverValue before s d).isNone = true ∧
    (updatesOf queue s d).head?.any (·.offset.isSome) = true

instance (s : SignalId) (d : Option ProcessId) :
    Decidable (Opens design before queue s d) := inferInstanceAs (Decidable (_ ∧ _ ∧ _))

/-- Behind the queue the process has the direct route: it had it before the commit, or staging
opened it on a signal without drivers, and no other driver was opened. -/
def RoutesTo (s : SignalId) (p : ProcessId) : Prop :=
  ((directDriver design before s).any (·.process = p) = true ∨
    canOpenRoute design before s = true ∧ Opens design before queue s (some p) ∧
      design.defaultStrength p = true) ∧
  ∀ pending ∈ queue, Opens design before queue s pending.driver → pending.driver = some p

instance (s : SignalId) (p : ProcessId) :
    Decidable (RoutesTo design before queue s p) := inferInstanceAs (Decidable (_ ∧ _))

variable {design before} {queue queue' : List (PendingUpdate β)} {pending : PendingUpdate β}
  {state : State β} {s : SignalId} {d : Option ProcessId} {p : ProcessId}

theorem Opens.mem (h : Opens design before queue s d) :
    ∃ first ∈ queue, first.signal = s ∧ first.driver = d := by
  cases hfirst : updatesOf queue s d with
  | nil => simp [Opens, hfirst] at h
  | cons first rest =>
    have hmem : first ∈ updatesOf queue s d := by simp [hfirst]
    exact ⟨first, by simpa [updatesOf] using hmem⟩

theorem routesTo_iff : RoutesTo design before queue s p ↔
    ((directDriver design before s).any (·.process = p) = true ∨
      canOpenRoute design before s = true ∧ Opens design before queue s (some p) ∧
        design.defaultStrength p = true) ∧
    ∀ d, Opens design before queue s d → d = some p := by
  refine and_congr_right fun _ => ⟨fun h d hopens => ?_, fun h pending _ => h pending.driver⟩
  obtain ⟨first, hmem, -, rfl⟩ := hopens.mem
  exact h first hmem hopens

@[simp] theorem updatesOf_append (queue queue' : List (PendingUpdate β)) (s : SignalId)
    (d : Option ProcessId) :
    updatesOf (queue ++ queue') s d = updatesOf queue s d ++ updatesOf queue' s d :=
    filter_append ..

theorem updatesOf_self (pending : PendingUpdate β) :
    updatesOf [pending] pending.signal pending.driver = [pending] := by simp [updatesOf]

theorem opens_append (h : updatesOf queue s d ≠ []) :
    Opens design before (queue ++ queue') s d ↔ Opens design before queue s d := by
  obtain ⟨first, rest, hfirst⟩ := exists_cons_of_ne_nil h
  simp [Opens, hfirst]

theorem Opens.append (h : Opens design before queue s d) (queue' : List (PendingUpdate β)) :
    Opens design before (queue ++ queue') s d :=
  (opens_append fun hnil => by simp [Opens, hnil] at h).mpr h

theorem opens_concat_of_ne (h : ¬ (pending.signal = s ∧ pending.driver = d)) :
    Opens design before (queue ++ [pending]) s d ↔ Opens design before queue s d := by
  simp [Opens, updatesOf, h]

theorem opens_concat_first (h : updatesOf queue pending.signal pending.driver = []) :
    Opens design before (queue ++ [pending]) pending.signal pending.driver ↔
      (design.signal pending.signal).resolution ≠ .none ∧
        driverValue before pending.signal pending.driver = none ∧ pending.offset ≠ none := by
  simp [Opens, h, updatesOf_self, Option.isSome_iff_ne_none]

/-- A slice that is the first update of a driver without a value. -/
def IsFirstSlice (design : Design β) (before : State β) (queue : List (PendingUpdate β))
    (pending : PendingUpdate β) : Prop :=
  (design.signal pending.signal).resolution ≠ .none ∧
    driverValue before pending.signal pending.driver = none ∧
    updatesOf queue pending.signal pending.driver = [] ∧ pending.offset ≠ none

theorem opens_concat_new (h : IsFirstSlice design before queue pending) (s : SignalId)
    (d : Option ProcessId) : Opens design before (queue ++ [pending]) s d ↔
      Opens design before queue s d ∨ (s = pending.signal ∧ d = pending.driver) := by
  obtain ⟨hresolved, hnone, hfirst, hslice⟩ := h
  by_cases hself : pending.signal = s ∧ pending.driver = d
  · obtain ⟨rfl, rfl⟩ := hself
    simp [opens_concat_first hfirst, hresolved, hnone, hslice]
  · rw [opens_concat_of_ne hself, or_iff_left]
    exact fun heq => hself ⟨heq.1.symm, heq.2.symm⟩

theorem opens_concat_kept (h : ¬ IsFirstSlice design before queue pending) (s : SignalId)
    (d : Option ProcessId) :
    Opens design before (queue ++ [pending]) s d ↔ Opens design before queue s d := by
  by_cases hself : pending.signal = s ∧ pending.driver = d
  · obtain ⟨rfl, rfl⟩ := hself
    by_cases hfirst : updatesOf queue pending.signal pending.driver = []
    · rw [opens_concat_first hfirst]
      refine iff_of_false (fun hnew => h ⟨hnew.1, hnew.2.1, hfirst, hnew.2.2⟩) ?_
      simp [Opens, hfirst]
    · exact opens_append hfirst
  · exact opens_concat_of_ne hself

/-- The state behind a staged queue: the opened drivers have their initial value, the others what
they had. -/
structure Opened (design : Design β) (before : State β) (queue : List (PendingUpdate β))
    (state : State β) : Prop where
  valid : Valid design state
  driven : state.driven = before.driven
  value : ∀ s d, driverValue state s d = if Opens design before queue s d
    then some (design.signal s).initialDriver else driverValue before s d
  route : ∀ s p, (directDriver design state s).any (·.process = p) = true ↔
    RoutesTo design before queue s p
  few : ∀ s p, (∀ q, Opens design before queue s (some q) → q = p) →
    (state.drivers s).length ≤
    (before.drivers s).length + (if Opens design before queue s (some p) then 1 else 0)

theorem opened_nil (h : Valid design before) : Opened design before [] before where
  valid := h
  driven := rfl
  value s d := by simp [Opens, updatesOf]
  route s p := by simp [RoutesTo, Opens, updatesOf]
  few s p _ := Nat.le_add_right _ _

theorem Opened.congr (h : Opened design before queue state)
    (hopens : ∀ s d, Opens design before queue' s d ↔ Opens design before queue s d) :
    Opened design before queue' state where
  valid := h.valid
  driven := h.driven
  value s d := by simp only [h.value, hopens]
  route s p := by
    rw [h.route, routesTo_iff, routesTo_iff]
    simp only [hopens]
  few s p := by simpa only [hopens] using h.few s p

theorem Opened.getD (h : Opened design before queue state) (s : SignalId)
    (d : Option ProcessId) : (driverValue state s d).getD (design.signal s).initialDriver =
      (driverValue before s d).getD (design.signal s).initialDriver := by
  rw [h.value]
  split_ifs with hopens
  · have hnone : driverValue before s d = none := by simpa using hopens.2.1
    simp [hnone]
  · rfl

section Start
variable (h : Opened design before queue state)
include h

theorem Opened.value_none : driverValue state s d = none ↔
    driverValue before s d = none ∧ ¬ Opens design before queue s d := by
  rw [h.value]
  by_cases hopens : Opens design before queue s d <;> simp [hopens]

theorem Opened.canOpenRoute_iff : canOpenRoute design state s = true ↔
    canOpenRoute design before s = true ∧ ∀ d, ¬ Opens design before queue s d := by
  have hempty : ∀ state : State β, state.drivers s = [] ↔
      ∀ p, driverValue state s (some p) = none := fun state => by
    simp only [driverValue, Option.map_eq_none_iff, findDriver, find?_eq_none]
    exact ⟨fun hnil => by simp [hnil],
      fun hnone => eq_nil_iff_forall_not_mem.mpr fun r hr => by simpa using hnone r.process r hr⟩
  have hexternal : state.external s = none ↔ before.external s = none ∧
      ¬ Opens design before queue s none := h.value_none (d := none)
  simp only [canOpenRoute, Bool.and_eq_true, decide_eq_true_eq, List.isEmpty_iff,
    Option.isNone_iff_eq_none, hexternal, hempty, h.value_none, forall_and, Option.forall]
  tauto

end Start

theorem directRoute_of_length (h : (state.drivers s).length ≠ 1) :
    directRoute design state s = none := by
  cases hroute : directRoute design state s with
  | none => rfl
  | some p =>
    obtain ⟨-, r, hdrivers, -⟩ := directRoute_some hroute
    simp [hdrivers] at h

theorem directDriver_opened (h : findDriver (state.drivers s) p = none) :
    directDriver design (driverSlot design state p s).1 s =
      if canOpenRoute design state s && design.defaultStrength p then
        some ⟨p, (design.signal s).initialDriver, design.defaultStrength p, false⟩
          else none := by
  rw [driverSlot_new h]
  have hwidth : (design.signal s).initialDriver.length = design.width s := rfl
  cases hdrivers : state.drivers s with
  | nil =>
    cases hexternal : state.external s <;>
      simp [directDriver, directSingleDriverRecord, refreshRoute, directRoute, insertRecord,
        canOpenRoute, eligible, findDriver, hdrivers, hexternal]
    split_ifs <;> simp_all [findDriver]
  | cons r rest =>
    have hroute : directRoute design { state with
        drivers := update state.drivers s (insertRecord ⟨p, (design.signal s).initialDriver,
          design.defaultStrength p, false⟩ (r :: rest)) } s = none :=
      directRoute_of_length (by simp [length_insertRecord])
    simp [directDriver, directSingleDriverRecord, refreshRoute, hroute, canOpenRoute, hdrivers]

theorem driverValue_of_directDriver
    (h : (directDriver design state s).any (·.process = p) = true) :
    driverValue state s (some p) ≠ none := by
  obtain ⟨r, hr, hp⟩ : ∃ r, directDriver design state s = some r ∧ r.process = p := by
    simpa [Option.any_eq_true] using h
  obtain ⟨q, -, hfound⟩ := Option.bind_eq_some_iff.mp (Option.filter_eq_some_iff.mp hr).1
  have hq : r.process = q := by simpa using find?_some hfound
  rw [← hp, hq]
  simp [driverValue, hfound]

section Slot
variable (hopens : ∀ t e,
  Opens design before queue' t e ↔ Opens design before queue t e ∨ (t = s ∧ e = d))
include hopens

theorem routesTo_of_ne {t : SignalId} (ht : t ≠ s) :
    RoutesTo design before queue' t p ↔ RoutesTo design before queue t p := by
  simp [routesTo_iff, hopens, ht]

variable (h : Opened design before queue state)
include h

theorem Opened.driverSlot (hd : d = some p) (hnone : driverValue state s (some p) = none) :
    Opened design before queue' (driverSlot design state p s).1 := by
  subst hd
  have hfound : findDriver (state.drivers s) p = none := by simpa [driverValue] using hnone
  obtain ⟨hbefore, hclosed⟩ := h.value_none.mp hnone
  have hdirect : directDriver design (UpdateCommit.driverSlot design state p s).1 s = _ :=
    directDriver_opened hfound
  rw [driverSlot_new hfound] at hdirect ⊢
  set added : DriverRecord β :=
    ⟨p, (design.signal s).initialDriver, design.defaultStrength p, false⟩
  have hinsert : ∀ q, findDriver (insertRecord added (state.drivers s)) q =
      if p = q then some added else findDriver (state.drivers s) q :=
    fun q => findDriver_insertRecord hfound
  refine ⟨h.valid.refreshRoute ?_ (h.valid.external_width s), h.driven, ?_, ?_, ?_⟩
  · intro r hr
    rcases mem_insertRecord.mp hr with rfl | hr
    · rfl
    · exact h.valid.driver_width s r hr
  · intro t e
    have hvalue := h.value t e
    cases e with
    | none => simpa [driverValue, refreshRoute, hopens] using hvalue
    | some q =>
      by_cases ht : t = s
      · subst ht
        by_cases hq : p = q
        · subst hq
          simp [driverValue, refreshRoute, hinsert, hopens, added]
        · simpa [driverValue, refreshRoute, hinsert, hopens, hq, Ne.symm hq] using hvalue
      · simpa [driverValue, refreshRoute, hopens, ht] using hvalue
  · intro t q
    by_cases ht : t = s
    · subst ht
      have hself : Opens design before queue' t (some p) := (hopens t _).mpr (.inr ⟨rfl, rfl⟩)
      have hany : (if canOpenRoute design state t && design.defaultStrength p then some added
          else none).any (·.process = q) = true ↔
          canOpenRoute design state t = true ∧ design.defaultStrength p = true ∧ p = q := by
        split_ifs <;> simp_all [added]
      rw [hdirect, routesTo_iff, hany, h.canOpenRoute_iff]
      constructor
      · rintro ⟨⟨hopen, hquiet⟩, hstrength, rfl⟩
        refine ⟨.inr ⟨hopen, hself, hstrength⟩, fun e he => ?_⟩
        exact (((hopens t e).mp he).resolve_left (hquiet e)).2
      · rintro ⟨hroute, hsole⟩
        obtain rfl : p = q := Option.some.inj (hsole _ hself)
        obtain ⟨hopen, -, hstrength⟩ :=
          hroute.resolve_left fun hany => driverValue_of_directDriver hany hbefore
        refine ⟨⟨hopen, fun e he => hclosed ?_⟩, hstrength, rfl⟩
        exact hsole e ((hopens t e).mpr (.inl he)) ▸ he
    · rw [routesTo_of_ne hopens ht, ← h.route]
      simp [directDriver, directSingleDriverRecord, refreshRoute, ht]
  · intro t q hsole
    by_cases ht : t = s
    · subst ht
      have hself : Opens design before queue' t (some p) := (hopens t _).mpr (.inr ⟨rfl, rfl⟩)
      obtain rfl := hsole p hself
      have hfew := h.few t p fun q hq => hsole q ((hopens t _).mpr (.inl hq))
      rw [if_neg hclosed] at hfew
      simp only [refreshRoute, update_self, length_insertRecord, if_pos hself]
      omega
    · simpa [refreshRoute, ht, hopens] using h.few t q (by simpa [hopens, ht] using hsole)

theorem Opened.externalDriverSlot (hd : d = none) (hnone : state.external s = none) :
    Opened design before queue' (externalDriverSlot design state s).1 := by
  subst hd
  simp only [UpdateCommit.externalDriverSlot, hnone]
  refine ⟨⟨h.valid.route, h.valid.driver_width, ?_, h.valid.driven_width⟩,
    h.driven, ?_, ?_, ?_⟩
  · intro t value hvalue
    by_cases ht : t = s
    · subst ht
      obtain rfl : _ = value := by simpa using hvalue
      rfl
    · exact h.valid.external_width t value (by simpa [ht] using hvalue)
  · intro t e
    have hvalue := h.value t e
    cases e with
    | some q => simpa [driverValue, hopens] using hvalue
    | none =>
      by_cases ht : t = s
      · simp [driverValue, hopens, ht]
      · simpa [driverValue, hopens, ht] using hvalue
  · intro t q
    by_cases ht : t = s
    · subst ht
      have hclosed : ¬ RoutesTo design before queue' t q := fun hroutes => by
        simpa using (routesTo_iff.mp hroutes).2 none ((hopens t none).mpr (.inr ⟨rfl, rfl⟩))
      simp [directDriver, hclosed]
    · rw [routesTo_of_ne hopens ht, ← h.route]
      simp [directDriver, directSingleDriverRecord, ht]
  · intro t q hsole
    simpa [hopens] using h.few t q (by simpa [hopens] using hsole)

end Slot

end Openings

end FsimRuntime.UpdateCommit

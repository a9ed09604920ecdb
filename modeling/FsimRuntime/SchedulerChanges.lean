import FsimRuntime.SchedulerModel

/-!
# What the scheduler's actions can do

An `Edit` is what an operation does to the queues, a `Move` what `run` does from
one callback to the next. Both forget where `run` stands, and a `Move` keeps the
tests the code has made before it.
-/

namespace FsimRuntime.Scheduler

open Queue List

/-- The queues new work may enter. -/
def Place.Open (slot : CurrentSlot) : Place → Prop
  | .current phase => slot.phase ≤ phase.index
  | .systemverilogRunning => slot.systemverilogPhase = some .active
  | _ => True

def CurrentSlot.Drains (slot : CurrentSlot) : Drain → Prop
  | .generic => slot.phase < phaseCount ∧ slot.systemverilogPhase = none
  | .systemverilog => slot.systemverilogPhase.isSome
  | .endOfSlot => slot.phase = phaseCount ∧ slot.systemverilogPhase = none

namespace Core

/-- A new entry has a fresh sequence number or a reserved key. -/
inductive Admits (s : Core) (e : Entry) : Core → Prop
  | fresh (slots : CancellationSlots) (hfresh : e.sequence = s.nextSequence) :
      Admits s e { s with slots := slots, nextSequence := s.nextSequence + 1 }
  | reserved (slots : CancellationSlots) (hkey : ⟨e.order, e.sequence⟩ ∈ s.reserved) :
      Admits s e { s with slots := slots }

inductive Edit (s : Core) : Core → Prop
  | slots (slots : CancellationSlots) : Edit s { s with slots := slots }
  | burn (slots : CancellationSlots) :
      Edit s { s with slots := slots, nextSequence := s.nextSequence + 1 }
  | reserve (order : ℕ) :
      Edit s { s with
        nextSequence := s.nextSequence + 1
        reserved := ⟨order, s.nextSequence⟩ :: s.reserved }
  | place {slot : CurrentSlot} {place : Place} {e : Entry} {s' : Core}
      (hadmits : s.Admits e s') (hcurrent : s.current = some slot) (hopen : place.Open slot) :
      Edit s { s' with current := some (slot.push place e) }
  | later {time : ℕ} {place : Place} {e : Entry} {s' : Core}
      (hadmits : s.Admits e s') (htime : s.now ≤ time) (hplace : place ≠ .systemverilogRunning)
      (hcurrent : ∀ slot, s.current = some slot → slot.time ≠ time) :
      Edit s { s' with future := s.future ++ [⟨time, place, e⟩] }

def discard (s : Core) (slots : CancellationSlots) : Core :=
  { s with current := none, future := [], reserved := [], slots := slots }

inductive Move (s : Core) : Core → Prop
  | stay : Move s s
  | clean (hcurrent : s.current = none) : Move s s.dropEmptySlots
  | wait {limit : ℕ} (hcurrent : s.current = none) (hnow : s.now ≤ limit)
      (hfuture : ∀ time ∈ s.nextPendingTime, limit < time) :
      Move s { s.dropEmptySlots with now := limit }
  | load {time : ℕ} (hcurrent : s.current = none) (htime : s.nextPendingTime = some time) :
      Move s (s.dropEmptySlots.loadNextSlot time)
  | mark {slot : CurrentSlot} (hcurrent : s.current = some slot) (executing : Bool) :
      Move s { s with current := some { slot with executingEndOfSlot := executing } }
  | nextDelta {slot : CurrentSlot} (hcurrent : s.current = some slot)
      (hphase : slot.phase = phaseCount) (hidle : slot.systemverilogPhase = none)
      (hsystemverilog : ∀ region, region ≠ .postponed →
        empty s.slots (slot.queues (.systemverilog region)) = true)
      (hnext : s.nextDeltaEmpty slot = false) :
      Move s { s with current := some slot.swapDelta }
  | batch {slot slot' : CurrentSlot} {includePostponed : Bool} (hcurrent : s.current = some slot)
      (hidle : slot.systemverilogPhase = none)
      (hbegin : beginSystemverilogBatch s.maxDeltaCycles s.slots slot includePostponed =
        .started slot') :
      Move s { s with current := some { slot' with executingEndOfSlot := false } }
  | take {slot : CurrentSlot} {drain : Drain} {e : Entry} (hcurrent : s.current = some slot)
      (hdrains : slot.Drains drain)
        (hnext : next s.slots (slot.queues (slot.drained drain)) = some e) :
      Move s (s.take slot drain e)
  | finish {slot : CurrentSlot} {drain : Drain} (hcurrent : s.current = some slot)
      (hdrains : slot.Drains drain)
      (hdone : next s.slots (slot.queues (slot.drained drain)) = none ∨ drain = .endOfSlot) :
      Move s (s.finishQueue slot drain)
  | drop {slot : CurrentSlot} (hcurrent : s.current = some slot)
      (hphase : slot.phase = phaseCount) (hidle : slot.systemverilogPhase = none)
      (hsystemverilog : ∀ region, empty s.slots (slot.queues (.systemverilog region)) = true)
      (hnext : s.nextDeltaEmpty slot = true)
        (hend : empty s.slots (slot.queues .endOfSlot) = true) :
      Move s { s with current := none }

abbrev Edits : Core → Core → Prop := Relation.ReflTransGen Edit

end Core

structure Machine.Control (m : Machine) : Prop where
  limit : m.location ≠ .idle → ∀ limit ∈ m.limit, m.now ≤ limit
  innerLoop : ∀ drain executed, m.location = .innerLoop drain executed →
    ∃ slot, m.current = some slot ∧ slot.Drains drain ∧ (executed → drain = .endOfSlot)
  inCallback : ∀ drain, m.location = .inCallback drain →
    ∃ slot, m.current = some slot ∧ slot.Drains drain

theorem Phase.getElem?_all {n : ℕ} {phase : Phase} (h : Phase.all[n]? = some phase) :
    phase.index = n := by
  have hl : n < 8 := (List.getElem?_eq_some_iff.mp h).1
  interval_cases n <;> cases phase <;> first | rfl | cases h

/-- Whether an operation inserts into the batch that is running. -/
def Op.entersRunning : Op → Bool
  | .scheduleInternalSystemverilogRunningActive .. => true
  | _ => false

/-- Whether an operation asks at the time `now` for end-of-slot work of the time `time`. -/
def Op.entersEndOfSlot (now time : ℕ) : Op → Bool
  | .scheduleAt due phase _ _ => due = time && phase = .postponed
  | .scheduleAfter delay phase _ _
  | .scheduleAfterCancelable delay phase _ _ => now + delay = time && phase = .postponed
  | .schedule phase _ _ | .scheduleNextDelta phase _ _ | .scheduleReservedNextDelta phase _ _
  | .scheduleReservedNextDeltaCancelable phase _ _ | .scheduleReservedCurrent phase _ _
  | .scheduleReservedCurrentCancelable phase _ _ => phase = .postponed
  | .scheduleEndOfTimeSlot .. => true
  | _ => false

def Response.isFailed : Response → Bool
  | .failed _ => true
  | _ => false

section Performs

variable {m made m' : Machine} {s : Core} {e : Entry} {time o : ℕ} {phase : Phase}

namespace Core

variable {s' : Core}

theorem Admits.frame (h : s.Admits e s') :
    s'.current = s.current ∧ s'.now = s.now ∧ s'.future = s.future := by
  cases h <;> exact ⟨rfl, rfl, rfl⟩

theorem Edit.now_eq (h : s.Edit s') : s'.now = s.now := by
  cases h with
  | place ha | later ha => exact ha.frame.2.1
  | _ => rfl

theorem Edits.now_eq (h : s.Edits s') : s'.now = s.now := by
  induction h with
  | refl => rfl
  | tail _ he ih => exact he.now_eq.trans ih

end Core

structure Machine.Performs (m m' : Machine) : Prop where
  edits : m.toCore.Edits m'.toCore
  location : m'.location = m.location
  limit : m'.limit = m.limit
  frame : m.location ≠ .idle → ∀ slot, m.current = some slot →
    ∃ queues, m'.current = some { slot with queues := queues }

namespace Machine

theorem Performs.trans {m'' : Machine} (h : m.Performs m') (h' : m'.Performs m'') :
    m.Performs m'' := by
  refine ⟨h.edits.trans h'.edits, h'.location.trans h.location, h'.limit.trans h.limit,
    fun hr slot hs => ?_⟩
  obtain ⟨q, hq⟩ := h.frame hr slot hs
  obtain ⟨q', hq'⟩ := h'.frame (h.location ▸ hr) _ hq
  exact ⟨q', hq'⟩

section
variable (he : m.toCore.Edit m'.toCore) (hl : m'.location = m.location) (hli : m'.limit = m.limit)
include he hl hli

theorem Performs.of_edit (hf : ∀ slot, m.current = some slot →
      ∃ queues, m'.current = some { slot with queues := queues }) : m.Performs m' :=
  ⟨.single he, hl, hli, fun _ => hf⟩

theorem Performs.same_current (hc : m'.current = m.current) : m.Performs m' :=
  .of_edit he hl hli fun slot h => ⟨slot.queues, hc.trans h⟩

end

structure Makes (m made : Machine) (e : Entry) : Prop where
  admits : m.toCore.Admits e made.toCore
  location : made.location = m.location
  limit : made.limit = m.limit

/-- Where the callback of a new entry is: in the entry, or in a slot acquired for it. -/
inductive Grants (slots : CancellationSlots) (e : Entry) : CancellationSlots → Prop
  | plain (hc : e.cancellation = none) : Grants slots e slots
  | acquired (task : Callback) (ht : e.task = .empty)
      (hc : e.cancellation = some (slots.acquire task).1) : Grants slots e (slots.acquire task).2

structure Made (m made : Machine) (e : Entry) : Prop extends Makes m made e where
  revision : made.revision = m.revision
  grants : Grants m.slots e made.slots

/-- The queue that takes the entry made for an operation. -/
inductive Enters (op : Op) (m made : Machine) (e : Entry) : Machine → Prop
  | push {slot : CurrentSlot} {place : Place} {revision : ℕ} (hs : m.current = some slot)
      (ho : place.Open slot) (hr : place = .systemverilogRunning → op.entersRunning = true)
      (hend : place = .endOfSlot → op.entersEndOfSlot m.now slot.time = true)
      (hv : m.revision ≤ revision)
        (hd : place = slot.drained .generic → m.revision < revision) :
      Enters op m made e { made.pushCurrent slot place e with revision := revision }
  | later {time : ℕ} {place : Place} (ht : m.now ≤ time) (hp : place ≠ .systemverilogRunning)
      (hc : ∀ slot, m.current = some slot → slot.time ≠ time) :
      Enters op m made e (made.pushFuture time place e)

/-- What an operation with the given response does at a time. -/
inductive Effect (op : Op) (response : Response) (m : Machine) : Machine → Prop
  | stop (stop : Bool) : Effect op response m { m with stop := stop }
  | burn (hfailed : response.isFailed = true) :
      Effect op response m { m with nextSequence := m.nextSequence + 1 }
  | reserve (order : ℕ) : Effect op response m
      { m with
        nextSequence := m.nextSequence + 1
        reserved := ⟨order, m.nextSequence⟩ :: m.reserved }
  | release {handle : Identity} (ho : op = .cancel handle) :
      Effect op response m { m with slots := m.slots.release handle }
  | enter {made m' : Machine} {e : Entry} (hm : m.Made made e) (he : Enters op m made e m')
      (haccepted : response.isFailed = false) : Effect op response m m'

abbrev Effects (op : Op) (response : Response) : Machine → Machine → Prop :=
  Relation.ReflTransGen (Effect op response)

variable {place : Place} {op : Op} {response : Response}

theorem Makes.pushCurrent {slot : CurrentSlot} (h : m.Makes made e) (hc : m.current = some slot)
    (ho : place.Open slot) : m.Performs (made.pushCurrent slot place e) := by
  refine .of_edit (.place h.admits hc ho) h.location h.limit fun slot' hs' => ?_
  obtain rfl : slot = slot' := Option.some.inj (hc.symm.trans hs')
  exact ⟨_, rfl⟩

theorem Makes.pushFuture (h : m.Makes made e) (ht : m.now ≤ time)
    (hp : place ≠ .systemverilogRunning)
    (hc : ∀ slot, m.current = some slot → slot.time ≠ time) :
    m.Performs (made.pushFuture time place e) := by
  refine .same_current ?_ h.location h.limit h.admits.frame.1
  have he := Core.Edit.later h.admits ht hp hc
  rw [← h.admits.frame.2.2] at he
  exact he

theorem Effect.performs (h : Effect op response m m') : m.Performs m' := by
  cases h with
  | stop => exact ⟨.refl, rfl, rfl, fun _ slot h => ⟨slot.queues, h⟩⟩
  | burn => exact .same_current (.burn m.slots) rfl rfl rfl
  | reserve o => exact .same_current (.reserve o) rfl rfl rfl
  | release => exact .same_current (.slots _) rfl rfl rfl
  | enter hm he =>
    cases he with
    | push hs ho =>
      obtain ⟨he, hl, hli, hf⟩ := hm.toMakes.pushCurrent hs ho
      exact ⟨he, hl, hli, hf⟩
    | later ht hp hc => exact hm.toMakes.pushFuture ht hp hc

section Operations

variable {op : Op} {response : Response} {t : EntryTask} {slot : CurrentSlot} {a : Bool}
  {members : List (ℕ × EntryTask)}

theorem makeEntry_made (h : m.makeEntry o t none = .ok (e, made)) :
    m.Made made e ∧ made = { m with nextSequence := m.nextSequence + 1 } := by
  rw [makeEntry] at h
  split at h
  · cases h
  · cases h
    exact ⟨⟨⟨.fresh m.slots rfl, rfl, rfl⟩, rfl, .plain rfl⟩, rfl⟩

theorem made_reserved {key : OrderKey} (t : Callback) (h : key ∈ m.reserved) :
    m.Made m ⟨key.order, key.sequence, .task t, none⟩ :=
  ⟨⟨.reserved m.slots h, rfl, rfl⟩, rfl, .plain rfl⟩

theorem makeCancelable_made {sequence : ℕ} (t : Callback) (h : ⟨o, sequence⟩ ∈ m.reserved) :
    m.Made (m.makeCancelable o sequence t).2.2 (m.makeCancelable o sequence t).1 :=
  ⟨⟨.reserved _ h, rfl, rfl⟩, rfl, .acquired t rfl rfl⟩

theorem makeCancelable_made_fresh (m : Machine) (o : ℕ) (t : Callback) : m.Made
      ({ m with nextSequence := m.nextSequence + 1 }.makeCancelable o m.nextSequence t).2.2
      ({ m with nextSequence := m.nextSequence + 1 }.makeCancelable o m.nextSequence t).1 :=
  ⟨⟨.fresh _ rfl, rfl, rfl⟩, rfl, .acquired t rfl rfl⟩

theorem Made.effects (h : m.Made made e) (he : Enters op m made e m')
    (haccepted : response.isFailed = false) : Effects op response m m' :=
  .single (.enter h he haccepted)

theorem genericPlace_ne_running : genericPlace phase ≠ .systemverilogRunning := by
  rw [genericPlace]
  split <;> nofun

theorem genericTarget_spec (slot : CurrentSlot) (phase : Phase) :
    (genericTarget slot phase).Open slot ∧ genericTarget slot phase ≠ .systemverilogRunning ∧
      (genericTarget slot phase = .endOfSlot → phase = .postponed) ∧
      (genericTarget slot phase = slot.drained .generic →
        phase ≠ .postponed ∧ phase.index = slot.phase) := by
  rw [genericTarget]
  split
  · rw [nextDeltaPlace]
    split
    · next hpostponed => exact ⟨trivial, nofun, fun _ => hpostponed, nofun⟩
    · exact ⟨trivial, nofun, nofun, nofun⟩
  · next hp =>
    rw [genericPlace]
    split
    · next hpostponed => exact ⟨trivial, nofun, fun _ => hpostponed, nofun⟩
    · next hn =>
      refine ⟨Nat.le_of_not_lt hp, nofun, nofun, fun h => ⟨hn, ?_⟩⟩
      have hg : phase = slot.genericPhase.getD .postponed := Place.current.inj h
      cases hq : slot.genericPhase with
      | none => simp [hq, hn] at hg
      | some executor =>
        rw [hq] at hg
        exact hg ▸ Phase.getElem?_all hq

theorem adjustReactive_postponed {executing : Option Phase} :
    phase.adjustReactive executing = .postponed ↔ phase = .postponed := by
  unfold Phase.adjustReactive
  cases phase <;> split <;> simp

section
variable (h : m.Made made e)
include h

theorem Made.push {place : Place} (hs : m.current = some slot)
    (ho : place.Open slot) (hr : place = .systemverilogRunning → op.entersRunning = true)
    (hend : place = .endOfSlot → op.entersEndOfSlot m.now slot.time = true)
    (hd : place ≠ slot.drained .generic) : Enters op m made e (made.pushCurrent slot place e) :=
  .push hs ho hr hend h.revision.ge fun h => absurd h hd

theorem Made.enqueueAt (hl : m.now ≤ time)
    (hend : phase = .postponed → op.entersEndOfSlot m.now time = true) :
    Enters op m made e (finish made response (made.enqueueAt time phase e a)).1 := by
  have hn := h.admits.frame.2.1
  have hc := h.admits.frame.1
  rw [Machine.enqueueAt, if_neg (Nat.not_lt.mpr (hn ▸ hl)), hc]
  split
  · next slot hs =>
    split
    · next htime =>
      dsimp only [finish]
      have hpostponed : (if a then phase.adjustReactive slot.genericPhase else phase) =
          .postponed → phase = .postponed := by
        split
        · exact adjustReactive_postponed.mp
        · exact id
      generalize (if a then phase.adjustReactive slot.genericPhase else phase) =
        target at hpostponed
      obtain ⟨ho, hr, he, hd⟩ := genericTarget_spec slot target
      have hend' (h : genericTarget slot target = .endOfSlot) :
          op.entersEndOfSlot m.now slot.time = true := htime ▸ hend (hpostponed (he h))
      split
      · exact .push hs ho (fun h => absurd h hr) hend' (Nat.le_succ_of_le h.revision.ge)
          fun _ => Nat.lt_succ_of_le h.revision.ge
      · next hv => exact h.push hs ho (fun h => absurd h hr) hend' fun h => hv (hd h)
    · next hne =>
      refine .later hl genericPlace_ne_running fun slot' hs' => ?_
      obtain rfl := Option.some.inj (hs.symm.trans hs')
      exact fun he => hne he.symm
  · next hs =>
    exact .later hl genericPlace_ne_running fun slot hs' => by simp [hs] at hs'

theorem Made.enqueueSystemverilogAt (hl : m.now ≤ time) :
    Enters op m made e (finish made response (made.enqueueSystemverilogAt time phase e)).1 := by
  have hn := h.admits.frame.2.1
  have hc := h.admits.frame.1
  rw [Machine.enqueueSystemverilogAt, if_neg (Nat.not_lt.mpr (hn ▸ hl)), hc]
  split
  · next slot hs =>
    split
    · dsimp only [finish]
      generalize phase.adjustReactive slot.systemverilogPhase = r
      have ho : (Place.systemverilog r).Open slot := trivial
      split
      · exact .push hs ho nofun nofun (Nat.le_succ_of_le h.revision.ge) nofun
      · exact h.push hs ho nofun nofun nofun
    · next hne =>
      refine .later hl nofun fun slot' hs' => ?_
      obtain rfl := Option.some.inj (hs.symm.trans hs')
      exact fun he => hne he.symm
  · next hs => exact .later hl nofun fun slot hs' => by simp [hs] at hs'

theorem Made.enqueueNextDelta (hend : ∀ time, phase = .postponed →
      op.entersEndOfSlot m.now time = true) :
        Enters op m made e (made.enqueueNextDelta phase e) := by
  rw [Machine.enqueueNextDelta, h.admits.frame.1]
  split
  · next slot hs =>
    rw [nextDeltaPlace]
    split
    · next hpostponed => exact h.push hs trivial nofun (fun _ => hend _ hpostponed) nofun
    · exact h.push hs trivial nofun nofun nofun
  · next hs =>
    exact .later h.admits.frame.2.1.ge genericPlace_ne_running fun slot hs' => by simp [hs] at hs'

end

/-- The effects of an operation with the given result. -/
abbrev Results (op : Op) (m : Machine) (result : Machine × Response) : Prop :=
  Effects op result.2 m result.1

section
variable (h : m.Made made e) (hre : response.isFailed = false)
include h hre

theorem Made.effects_enqueueAt (hl : m.now ≤ time)
    (hend : phase = .postponed → op.entersEndOfSlot m.now time = true) :
    Results op m (finish made response (made.enqueueAt time phase e a)) := by
  refine h.effects (h.enqueueAt hl hend) ?_
  rw [Machine.enqueueAt, if_neg (Nat.not_lt.mpr (h.admits.frame.2.1 ▸ hl))]
  repeat' split
  all_goals exact hre

theorem Made.effects_enqueueSystemverilogAt (hl : m.now ≤ time) :
    Results op m (finish made response (made.enqueueSystemverilogAt time phase e)) := by
  refine h.effects (h.enqueueSystemverilogAt hl) ?_
  rw [Machine.enqueueSystemverilogAt, if_neg (Nat.not_lt.mpr (h.admits.frame.2.1 ▸ hl))]
  repeat' split
  all_goals exact hre

end

theorem scheduleAt_effects (hend : phase = .postponed → op.entersEndOfSlot m.now time = true) :
    Results op m (m.scheduleAt time phase o t) := by
  rw [scheduleAt]
  split
  · exact .refl
  · next ht =>
    split
    · next hma =>
      have hm := (makeEntry_made hma).1
      exact hm.effects_enqueueAt rfl (Nat.le_of_not_lt ht) hend
    · exact .refl

theorem scheduleSystemverilogAt_effects :
    Results op m (m.scheduleSystemverilogAt time phase o t) := by
  rw [scheduleSystemverilogAt]
  split
  · next hma =>
    obtain ⟨hm, rfl⟩ := makeEntry_made hma
    by_cases ht : time < m.now
    · rw [Machine.enqueueSystemverilogAt, if_pos ht]
      exact .single (.burn rfl)
    · exact hm.effects_enqueueSystemverilogAt rfl (Nat.le_of_not_lt ht)
  · exact .refl

theorem commitMembers_effects {round : ℕ} (hs : m.current = some slot)
    (haccepted : response.isFailed = false) :
    Effects op response m (m.commitMembers slot round members).1 := by
  induction members generalizing m slot with
  | nil => exact .refl
  | cons member members ih =>
    have hm : m.Made { m with nextSequence := m.nextSequence + 1 }
        ⟨member.1, m.nextSequence, member.2, none⟩ :=
      ⟨⟨.fresh m.slots rfl, rfl, rfl⟩, rfl, .plain rfl⟩
    have ho : (Place.systemverilog .active).Open slot := trivial
    exact (hm.effects (hm.push hs ho nofun nofun nofun) haccepted).trans (ih rfl)

theorem commitGroup_effects : Results op m (m.commitGroup a members) := by
  rw [commitGroup]
  split
  · next slot hs =>
    split
    · split
      · exact commitMembers_effects hs rfl
      · exact .refl
    · exact .refl
  · exact .refl

end Operations

/-- A refused operation has no effect. -/
theorem effects_guard {c : Prop} [Decidable c] {r : Response} {b : Machine × Response}
    (h : ¬c → Results op m b) : Results op m (if c then (m, r) else b) := by
  split_ifs with hc
  · exact .refl
  · exact h hc

theorem perform_effects (hop : op ≠ .discardPending) : Results op m (m.perform op) := by
  have hend {phase : Phase} (h : phase = .postponed) : decide (phase = .postponed) = true := by
    simpa using h
  cases op with
  | scheduleAt | schedule => exact scheduleAt_effects fun h => by simp [Op.entersEndOfSlot, h]
  | scheduleAfter =>
    exact effects_guard fun _ => scheduleAt_effects fun h => by simp [Op.entersEndOfSlot, h]
  | scheduleAfterCancelable delay phase o t =>
    have hm := makeCancelable_made_fresh m o t
    exact effects_guard fun _ => effects_guard fun _ =>
      hm.effects_enqueueAt rfl (Nat.le_add_right ..) fun h => by simp [Op.entersEndOfSlot, h]
  | cancel handle => exact .single (.release rfl)
  | scheduleNextDelta =>
    simp only [perform, scheduleNextDelta]
    split
    · next hma =>
      have hm := (makeEntry_made hma).1
      exact hm.effects (hm.enqueueNextDelta fun _ => hend) rfl
    · exact .refl
  | reserveOrderKey o => exact effects_guard fun _ => .single (.reserve o)
  | scheduleReservedNextDelta phase key t =>
    refine effects_guard fun hk => ?_
    have hm := made_reserved t (not_not.mp hk)
    exact hm.effects (hm.enqueueNextDelta fun _ => hend) rfl
  | scheduleReservedNextDeltaCancelable phase key t =>
    refine effects_guard fun hk => ?_
    have hm := makeCancelable_made t (not_not.mp hk)
    exact hm.effects (hm.enqueueNextDelta fun _ => hend) rfl
  | scheduleReservedCurrent phase key t =>
    refine effects_guard fun _ => effects_guard fun hk => ?_
    have hm := made_reserved t (not_not.mp hk)
    exact hm.effects_enqueueAt rfl le_rfl hend
  | scheduleReservedCurrentCancelable phase key t =>
    refine effects_guard fun _ => effects_guard fun hk => ?_
    have hm := makeCancelable_made t (not_not.mp hk)
    exact hm.effects_enqueueAt rfl le_rfl hend
  | scheduleGenericNextDeltaReadinessMember a executor o p =>
    simp only [perform, scheduleGenericNextDeltaReadinessMember]
    split
    · next slot hl hs =>
      split
      · have hm : m.Made { m with nextSequence := m.nextSequence + 1 } ⟨o,
            m.nextSequence, .compactFallback (.fallback executor p), none⟩ :=
          ⟨⟨.fresh m.slots rfl, rfl, rfl⟩, rfl, .plain rfl⟩
        have ho : (Place.nextDelta .active).Open slot := trivial
        exact hm.effects (hm.push hs ho nofun nofun nofun) rfl
      · exact .refl
    · exact .refl
  | scheduleSystemverilogAt | scheduleSystemverilog => exact scheduleSystemverilogAt_effects
  | scheduleSystemverilogAfter => exact effects_guard fun _ => scheduleSystemverilogAt_effects
  | scheduleSystemverilogAfterCancelable delay phase o t =>
    have hm := makeCancelable_made_fresh m o t
    exact effects_guard fun _ => effects_guard fun _ =>
      hm.effects_enqueueSystemverilogAt rfl (Nat.le_add_right ..)
  | scheduleSystemverilogGroupBatchable | scheduleSystemverilogReadinessMember =>
    simp only [perform, scheduleSystemverilogGroupBatchable]
    split
    · next hma =>
      have hm := (makeEntry_made hma).1
      exact hm.effects_enqueueSystemverilogAt rfl le_rfl
    · exact .refl
  | commitSystemverilogGroupBatch | commitSystemverilogCompactGroupBatch =>
    exact commitGroup_effects
  | scheduleInternalSystemverilogRunningActive =>
    simp only [perform, scheduleInternalSystemverilogRunningActive]
    split
    · next slot hs =>
      split
      · next ha =>
        split
        · next hma =>
          have hm := (makeEntry_made hma).1
          exact hm.effects (hm.push hs ha (fun _ => rfl) nofun nofun) rfl
        · exact .refl
      · exact scheduleSystemverilogAt_effects
    · exact scheduleSystemverilogAt_effects
  | scheduleEndOfTimeSlot =>
    simp only [perform, scheduleEndOfTimeSlot]
    split
    · next hma =>
      have hm := (makeEntry_made hma).1
      split
      · next slot hs => exact hm.effects (hm.push hs trivial nofun (fun _ => rfl) nofun) rfl
      · next hs => exact hm.effects (.later le_rfl nofun fun slot hs' => by simp [hs] at hs') rfl
    · exact .refl
  | requestStop => exact .single (.stop true)
  | clearStop => exact .single (.stop false)
  | discardPending => exact absurd rfl hop

theorem Effects.performs (h : Effects op response m m') : m.Performs m' := by
  induction h with
  | refl => exact ⟨.refl, rfl, rfl, fun _ slot h => ⟨slot.queues, h⟩⟩
  | tail _ he ih => exact ih.trans he.performs

theorem perform_performs (hop : op ≠ .discardPending) : m.Performs (m.perform op).1 :=
  (perform_effects hop).performs

theorem discardPending_cases : (m.perform .discardPending).1 = m ∨ m.location = .idle ∧
      ∃ slots, (m.perform .discardPending).1 = { m with toCore := m.toCore.discard slots } := by
  simp only [perform, discardPending]
  split
  · exact .inl rfl
  · next hid => exact .inr ⟨not_not.mp hid, _, rfl⟩

theorem perform_location (op : Op) : (m.perform op).1.location = m.location := by
  by_cases ho : op = .discardPending
  · subst ho
    rcases discardPending_cases (m := m) with h | ⟨-, slots, h⟩ <;> rw [h]
  · exact (perform_performs ho).location

end Machine

end Performs

section Moves

variable {m : Machine} {slot slot' : CurrentSlot} {slots : CancellationSlots}
  {mdc time : ℕ} {postponed : Bool} {r : Phase} {e : Entry} {d : Drain}

theorem Phase.mem_all (phase : Phase) : phase ∈ Phase.all := by
  cases phase <;> decide

theorem Phase.all_sorted : Phase.all.Pairwise fun a b => a.index < b.index := by decide

theorem Phase.index_lt (phase : Phase) : phase.index < phaseCount := by
  cases phase <;> decide

theorem Phase.index_injective {a b : Phase} (h : a.index = b.index) : a = b := by
  cases a <;> cases b <;> first | rfl | cases h

theorem mem_regions (h : postponed = true ∨ r ≠ .postponed) :
    r ∈ if postponed then Phase.all else Phase.all.take (phaseCount - 1) := by
  split
  · exact r.mem_all
  · next hp =>
    have hn := h.resolve_left hp
    cases r <;> first | decide | exact absurd rfl hn

theorem begin_nothing (h : beginSystemverilogBatch mdc slots slot postponed = .nothing)
    (hr : postponed = true ∨ r ≠ .postponed) :
    empty slots (slot.queues (.systemverilog r)) = true := by
  rw [beginSystemverilogBatch] at h
  split at h
  · split at h <;> cases h
  · next hn =>
    have he := find?_eq_none.mp hn r (mem_regions hr)
    simpa using he

theorem begin_started (h : beginSystemverilogBatch mdc slots slot postponed = .started slot') :
    ∃ r round, empty slots (slot.queues (.systemverilog r)) = false ∧
      (∀ earlier : Phase, earlier.index < r.index →
        empty slots (slot.queues (.systemverilog earlier)) = true) ∧
      Machine.systemverilogRoundAfterPendingPhase mdc slot r = some round ∧
      slot' = { slot with
        systemverilogRound := round
        lastSystemverilogPhase := some r
        queues := Function.update
          (Function.update slot.queues .systemverilogRunning
            (slot.queues (.systemverilog r))) (.systemverilog r)
            (slot.queues .systemverilogRunning)
        systemverilogPhase := some r } := by
  rw [beginSystemverilogBatch] at h
  split at h
  · next r hf =>
    obtain ⟨hr, before, after, hs, hb⟩ := find?_eq_some_iff_append.mp hf
    split at h
    · next round hro =>
      cases h
      refine ⟨r, round, by simpa using hr, fun earlier hl => ?_, hro, rfl⟩
      have hm : earlier ∈ before := by
        have ha : earlier ∈ before ++ r :: after := by
          rw [← hs]
          refine mem_regions ?_
          by_contra hc
          obtain ⟨-, hp⟩ := not_or.mp hc
          obtain rfl := not_not.mp hp
          exact absurd hl (Nat.not_lt.mpr (Nat.le_of_lt_succ r.index_lt))
        rcases mem_append.mp ha with hm | hm
        · exact hm
        · have hso : (before ++ r :: after).Pairwise fun a b => a.index < b.index := by
            rw [← hs]
            split
            · exact Phase.all_sorted
            · exact Phase.all_sorted.sublist (take_sublist ..)
          rcases mem_cons.mp hm with rfl | hm
          · exact absurd hl (lt_irrefl _)
          · have hg := (pairwise_cons.mp (pairwise_append.mp hso).2.1).1 earlier hm
            exact absurd hl (Nat.not_lt.mpr hg.le)
      simpa using hb earlier hm
    · cases h
  · cases h

namespace Core

variable {s : Core} {t : Timed}

theorem nextPendingTime_some (h : s.nextPendingTime = some time) :
    (∃ t ∈ s.future, t.time = time) ∧
      ∀ t ∈ s.future, t.entry.isCancelled s.slots = false → time ≤ t.time := by
  obtain ⟨hm, hle⟩ := min?_eq_some_iff.mp h
  constructor
  · obtain ⟨t, ht, rfl⟩ := mem_map.mp hm
    exact ⟨t, mem_of_mem_filter ht, rfl⟩
  · intro t ht hl
    exact hle t.time (mem_map_of_mem (mem_filter.mpr ⟨ht, by simp [hl]⟩))

theorem nextPendingTime_none (h : s.nextPendingTime = none) (ht : t ∈ s.future) :
    t.entry.isCancelled s.slots ≠ false := by
  intro hl
  have hn := min?_eq_none_iff.mp h
  have hm : t.time ∈ (s.future.filter fun t => !t.entry.isCancelled s.slots).map Timed.time :=
    mem_map_of_mem (mem_filter.mpr ⟨ht, by simp [hl]⟩)
  simp [hn] at hm

theorem mem_dropEmptySlots (h : t ∈ s.dropEmptySlots.future) :
    t ∈ s.future ∧ ∃ time, s.nextPendingTime = some time ∧ time ≤ t.time := by
  rw [dropEmptySlots] at h
  cases ht : s.nextPendingTime with
  | none => simp [ht] at h
  | some time =>
    simp only [ht, Option.elim_some, mem_filter, decide_eq_true_eq] at h
    exact ⟨h.1, time, rfl, h.2⟩

end Core

namespace Machine

theorem Control.leave {status : RunStatus} : (m.leave status).Control :=
  ⟨fun h => absurd rfl h, nofun, nofun⟩

section
variable (h : m.Control)
include h

theorem Control.drain (hr : m.location ≠ .idle) (hd : slot.Drains d) :
    (m.drain slot d).Control := by
  refine ⟨fun _ => h.limit hr, fun d' executed hl => ?_, nofun⟩
  cases hl
  refine ⟨_, rfl, ?_, nofun⟩
  cases d <;> exact hd

theorem Control.outer (hr : m.location ≠ .idle) {s : Core}
    (hn : s.now = m.now) : Machine.Control { m with toCore := s, location := .outerLoop } :=
  ⟨fun _ l hl => hn ▸ h.limit hr l hl, nofun, nofun⟩

section
variable (hr : m.location = .outerLoop)
include hr

theorem nextSlot_moves (hn : m.current = none) :
    m.toCore.Move m.nextSlot.toCore ∧ m.nextSlot.Control := by
  have hlo {time : ℕ} (hs : m.toCore.nextPendingTime = some time)
      (hli : ∀ l ∈ m.limit, time ≤ l) :
      m.toCore.Move (m.toCore.dropEmptySlots.loadNextSlot time) ∧
        Machine.Control { m with toCore := m.toCore.dropEmptySlots.loadNextSlot time } := by
    refine ⟨.load hn hs, fun _ => hli, ?_, ?_⟩ <;> simp [hr]
  simp only [nextSlot]
  split
  · exact ⟨.stay, .leave⟩
  · split
    · next limit hs hli =>
      split
      · next hlt => exact ⟨.wait hn hlt.le (by simp [hs]), .leave⟩
      · exact ⟨.clean hn, .leave⟩
    · exact ⟨.clean hn, .leave⟩
    · next time limit hs hli =>
      split
      · next hlt =>
        exact ⟨.wait hn (h.limit (by simp [hr]) limit hli) (by simpa [hs] using hlt), .leave⟩
      · next hlt =>
        refine hlo hs fun l hl => ?_
        obtain rfl : limit = l := Option.some.inj (hli.symm.trans hl)
        exact Nat.le_of_not_lt hlt
    · next time hs hli => exact hlo hs fun l hl => by simp [hli] at hl

theorem batch_moves (hs : m.current = some slot) (hid : slot.systemverilogPhase = none)
    (hb : beginSystemverilogBatch m.maxDeltaCycles m.slots slot postponed = .started slot') :
    m.toCore.Move (m.drain slot' .systemverilog).toCore ∧
      (m.drain slot' .systemverilog).Control := by
  refine ⟨.batch hs hid hb, h.drain (by simp [hr]) ?_⟩
  obtain ⟨r, round, -, -, -, rfl⟩ := begin_started hb
  rfl

theorem endDelta_moves (hsl : m.current = some slot)
    (hp : slot.phase = phaseCount) (hid : slot.systemverilogPhase = none)
    (hs : ∀ r, r ≠ .postponed → empty m.slots (slot.queues (.systemverilog r)) = true) :
    m.toCore.Move (m.endDelta slot).toCore ∧ (m.endDelta slot).Control := by
  have hne : m.location ≠ .idle := by simp [hr]
  have ho {s : Core} (hno : s.now = m.now) : Machine.Control { m with toCore := s } :=
    ⟨fun _ l hl => hno ▸ h.limit hne l hl, by simp [hr], by simp [hr]⟩
  rw [endDelta]
  split
  · next hn =>
    split
    · exact ⟨.stay, .leave⟩
    · exact ⟨.nextDelta hsl hp hid hs (by simpa using hn), ho rfl⟩
  · next hn =>
    split
    · next hb => exact batch_moves h hr hsl hid hb
    · exact ⟨.stay, .leave⟩
    · next hb =>
      split
      · next he =>
        refine ⟨.drop hsl hp hid (fun r => begin_nothing hb (.inl rfl))
          (by simpa using hn) he, ho rfl⟩
      · exact ⟨.mark hsl _, h.drain hne ⟨hp, hid⟩⟩

theorem selectQueue_moves (hs : m.current = some slot) (hl : slot.phase ≤ phaseCount) :
    m.toCore.Move (m.selectQueue slot).toCore ∧ (m.selectQueue slot).Control := by
  have hn : m.location ≠ .idle := by simp [hr]
  rw [selectQueue]
  split
  · exact ⟨.stay, .leave⟩
  · split
    · next hru => exact ⟨.mark hs _, h.drain hn hru⟩
    · next hid =>
      have hi' : slot.systemverilogPhase = none := by simpa using hid
      split
      · next hb => exact batch_moves h hr hs hi' hb
      · exact ⟨.stay, .leave⟩
      · next hb =>
        split
        · next hp =>
          exact endDelta_moves h hr hs hp hi' fun r hre =>
            begin_nothing hb (.inr hre)
        · next hp =>
          exact ⟨.mark hs _, h.drain hn ⟨lt_of_le_of_ne hl hp, hi'⟩⟩

end

theorem innerLoop_moves {executed : Bool} (hr : m.location = .innerLoop d executed)
    (hs : m.current = some slot) (hdr : slot.Drains d) (he : executed → d = .endOfSlot) :
    m.toCore.Move (m.innerLoop slot d executed).toCore ∧
    (m.innerLoop slot d executed).Control := by
  have hne : m.location ≠ .idle := by simp [hr]
  rw [innerLoop]
  split
  · next hn => exact ⟨.finish hs hdr (.inl hn), h.outer hne rfl⟩
  · next e hn =>
    split
    · next hen => exact ⟨.finish hs hdr (.inr (he hen)), h.outer hne rfl⟩
    · split
      · exact ⟨.stay, .leave⟩
      · refine ⟨.take hs hdr hn, fun _ => h.limit hne, nofun, fun d' hd => ?_⟩
        cases hd
        refine ⟨_, rfl, ?_⟩
        cases d <;> exact hdr

theorem advance_moves (hl : ∀ slot, m.current = some slot → slot.phase ≤ phaseCount) :
    m.toCore.Move m.advance.toCore ∧ m.advance.Control := by
  rw [advance]
  split
  · exact ⟨.stay, h⟩
  · next hr hn => exact nextSlot_moves h hr hn
  · next slot hr hs => exact selectQueue_moves h hr hs (hl slot hs)
  · next drain executed slot hr hs =>
    obtain ⟨slot', hs', hdr, he⟩ := h.innerLoop drain executed hr
    obtain rfl : slot = slot' := Option.some.inj (hs.symm.trans hs')
    exact innerLoop_moves h hr hs hdr he
  · next hr hn =>
    exact ⟨.stay, h.outer (by simp [hr]) rfl⟩
  · next current drain hr =>
    obtain ⟨slot, hs, hdr⟩ := h.inCallback drain hr
    refine ⟨.stay, fun _ => h.limit (by simp [hr]), fun d executed hd => ?_, nofun⟩
    cases hd
    exact ⟨slot, hs, hdr, by simp⟩

end

theorem Performs.control {m' : Machine} (hp : m.Performs m') (h : m.Control) : m'.Control := by
  have hdr {slot : CurrentSlot} {drain : Drain} {queues : Place → List Entry}
      (hd : slot.Drains drain) : CurrentSlot.Drains { slot with queues := queues } drain := by
    cases drain <;> exact hd
  refine ⟨fun hr l hli => ?_, fun drain executed hl => ?_, fun drain hl => ?_⟩
  · rw [hp.edits.now_eq]
    exact h.limit (hp.location ▸ hr) l (hp.limit ▸ hli)
  · rw [hp.location] at hl
    obtain ⟨slot, hs, hd, he⟩ := h.innerLoop drain executed hl
    obtain ⟨queues, hq⟩ := hp.frame (by simp [hl]) slot hs
    exact ⟨_, hq, hdr hd, he⟩
  · rw [hp.location] at hl
    obtain ⟨slot, hs, hd⟩ := h.inCallback drain hl
    obtain ⟨queues, hq⟩ := hp.frame (by simp [hl]) slot hs
    exact ⟨_, hq, hdr hd⟩

theorem perform_control (h : m.Control) (op : Op) : (m.perform op).1.Control := by
  by_cases ho : op = .discardPending
  · subst ho
    rcases discardPending_cases (m := m) with hm | ⟨hid, slots, hm⟩
    · rwa [hm]
    · rw [hm]
      refine ⟨fun hr => absurd hid hr, fun drain executed hl => ?_, fun drain hl => ?_⟩
      · simp [hid] at hl
      · simp [hid] at hl
  · exact (perform_performs ho).control h

theorem act_changes (h : m.Control)
    (hle : ∀ slot, m.current = some slot → slot.phase ≤ phaseCount)
    (a : Action) : (m.toCore.Edits (m.act a).toCore ∨ m.toCore.Move (m.act a).toCore ∨
      a = .op .discardPending ∧ ∃ slots, (m.act a).toCore = m.toCore.discard slots) ∧
      (m.act a).Control := by
  cases a with
  | call limit =>
    simp only [act, call]
    split
    · exact ⟨.inl .refl, h⟩
    · split
      · exact ⟨.inl .refl, h⟩
      · next hli =>
        refine ⟨.inl .refl, fun _ l hl => ?_, nofun, nofun⟩
        obtain rfl : limit = some l := hl
        simpa using hli
  | advance =>
    obtain ⟨hmo, hc⟩ := advance_moves h hle
    exact ⟨.inr (.inl hmo), hc⟩
  | op op =>
    simp only [act]
    split
    · refine ⟨?_, perform_control h op⟩
      by_cases ho : op = .discardPending
      · subst ho
        rcases discardPending_cases (m := m) with hm | ⟨-, slots, hm⟩
        · rw [hm]
          exact .inl .refl
        · exact .inr (.inr ⟨rfl, slots, by rw [hm]⟩)
      · exact .inl (perform_performs ho).edits
    · exact ⟨.inl .refl, h⟩
  | throw =>
    simp only [act, throw]
    split
    · exact ⟨.inl .refl, .leave⟩
    · exact ⟨.inl .refl, h⟩

end Machine

end Moves

end FsimRuntime.Scheduler

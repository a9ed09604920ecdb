import FsimRuntime.Logic
import FsimRuntime.UpdateCommitInstall

/-!
# The outcome of an update commit

After a commit every driver holds its own updates applied in the order of the
queue, and every updated signal was committed once, in the order of the
signals. Staging may give a driver its first value, which opens or closes the
direct route of the signal between updates of the same commit; exactly where
the parts of a driver's updates do not add up, the result fails.
-/

namespace FsimRuntime.UpdateCommit
open KeyedAccumulation List

variable {β : Type} {design : Design β}

section Rows

theorem appendRows_ok (design : Design β) (value : SignalId → List β) (signals : List SignalId)
    {rows : Rows β} {e : List (SignalId × List β)} (h : Holds rows e) (hn : signals.Nodup)
    (hc : ∀ s ∈ signals, s < design.signalCount) (hne : ∀ s ∈ signals, s ∉ e.map (·.1)) :
    ∃ r', signals.foldlM (fun rows s => appendCommitRow design rows s (value s)) rows = .ok r' ∧
      Holds r' (e ++ signals.map fun s => (s, value s)) := by
  induction signals generalizing rows e with
  | nil => exact ⟨rows, rfl, by simpa using h⟩
  | cons s signals ih =>
    rw [nodup_cons] at hn
    obtain ⟨r₁, hf, hh⟩ : ∃ r', appendCommitRow design rows s (value s) = .ok r' ∧
        Holds r' (e ++ [(s, value s)]) := h.append (hc s (by simp)) (hne s (by simp))
    obtain ⟨r₂, hr, hh⟩ := ih hh hn.2 (fun t ht => hc t (by simp [ht]))
      fun t ht hm => by
        rw [map_append, mem_append] at hm
        rcases hm with hm | hm
        · exact hne t (by simp [ht]) hm
        · obtain rfl : t = s := by simpa using hm
          exact hn.1 ht
    refine ⟨r₂, ?_, by simpa using hh⟩
    rw [foldlM_cons, hf]
    exact hr

def storedValue (design : Design β) (s : SignalId) (value : List β) : List β :=
  if (design.signal s).resolution ≠ .none && (design.signal s).hasChargeStrength
  then design.charged s value else value

variable {marked : SignalId → Bool} {c : Committed β}

theorem commitEntry_ok {s : SignalId} {value : List β}
    (hm : marked s = true → (design.signal s).hasChargeStrength = false)
    (hw : (c.state.driven s).length = value.length) :
    commitEntry design marked c (s, value) = .ok ⟨{ c.state with
        driven := Function.update c.state.driven s (storedValue design s value) },
      c.published ++ [(s, value)]⟩ := by
  obtain ⟨state, p⟩ := c
  simp only [commitEntry, commitRow]
  by_cases hd : (marked s && (directSingleDriverRecord state s).isSome) = true
  · rw [if_pos hd]
    have hc := hm (Bool.and_eq_true_iff.mp hd).1
    simp [storedValue, hc, pure, Except.pure]
  · rw [if_neg hd]
    by_cases hc : ((design.signal s).resolution ≠ .none &&
        (design.signal s).hasChargeStrength) = true
    · simp only [storedValue, hc, if_true, pure, Except.pure]
    · simp only [storedValue, hc, hw, ne_eq]
      rfl

theorem commitEntries_ok (e : List (SignalId × List β)) (c : Committed β)
    (hn : (e.map (·.1)).Nodup)
    (hm : ∀ s, marked s = true → (design.signal s).hasChargeStrength = false)
    (hw : ∀ entry ∈ e, (c.state.driven entry.1).length = entry.2.length) :
    ∃ driven, e.foldlM (commitEntry design marked) c =
        .ok ⟨{ c.state with driven }, c.published ++ e⟩ ∧
      (∀ entry ∈ e, driven entry.1 = storedValue design entry.1 entry.2) ∧
      ∀ s, s ∉ e.map (·.1) → driven s = c.state.driven s := by
  induction e generalizing c with
  | nil => exact ⟨c.state.driven, by simp [pure, Except.pure], by simp, fun _ _ => rfl⟩
  | cons entry e ih =>
    obtain ⟨s, value⟩ := entry
    rw [map_cons, nodup_cons] at hn
    have hf := commitEntry_ok (hm s) (hw (s, value) (by simp))
    have ho : ∀ t, t ∈ e.map (·.1) → t ≠ s := fun t ht heq => hn.1 (heq ▸ ht)
    obtain ⟨driven, hr, hs, hk⟩ := ih ⟨{ c.state with
        driven := Function.update c.state.driven s (storedValue design s value) },
      c.published ++ [(s, value)]⟩ hn.2 fun entry he => by
        have hne := ho entry.1 (mem_map_of_mem he)
        simpa [hne] using hw entry (by simp [he])
    refine ⟨driven, ?_, ?_, ?_⟩
    · rw [foldlM_cons, hf]
      refine Eq.trans hr ?_
      simp
    · intro entry he
      rcases mem_cons.mp he with rfl | he
      · rw [hk s hn.1]
        simp
      · exact hs entry he
    · intro t ht
      rw [map_cons, mem_cons, not_or] at ht
      rw [hk t ht.2]
      simp [ht.1]

end Rows

section Lanes

def updatesTo (queue : List (PendingUpdate β)) (s : SignalId) : List (PendingUpdate β) :=
  queue.filter fun pending => pending.signal = s

def updatesIn (design : Design β) (before : State β) (queue : List (PendingUpdate β))
    (lane : Lane) : List (PendingUpdate β) :=
  (itemsOf Prod.fst (laned design before queue) lane).map Prod.snd

variable {before state : State β} {queue : List (PendingUpdate β)} {staging : Staging β}
  {s : SignalId} {d : Option ProcessId} {p : ProcessId} {pending : PendingUpdate β}

theorem map_snd_laned (design : Design β) (before : State β) (queue : List (PendingUpdate β)) :
    (laned design before queue).map Prod.snd = queue := by
  induction queue using reverseRecOn with
  | nil => rfl
  | append_singleton queue pending ih => simp [laned_concat, ih]

theorem filter_laned (design : Design β) (before : State β) (holds : PendingUpdate β → Bool) :
    queue.filter holds =
    ((laned design before queue).filter fun item => holds item.2).map Prod.snd := by
  conv_lhs => rw [← map_snd_laned design before queue]
  exact filter_map ..

/-- The update takes the direct route of a resolved signal. -/
def TakesDirect (design : Design β) (before : State β) (queue : List (PendingUpdate β))
    (s : SignalId) (p : ProcessId) : Prop :=
  ∃ pending, (Lane.single s, pending) ∈ laned design before queue ∧ pending.driver = some p

theorem TakesDirect.routes (hresolved : (design.signal s).resolution ≠ .none)
    (h : TakesDirect design before queue s p) :
    ∃ seen rest, queue = seen ++ rest ∧ RoutesTo design before seen s p := by
  obtain ⟨pending, hmem, hp⟩ := h
  obtain ⟨seen, rest, rfl, hlane⟩ := mem_laned.mp hmem
  obtain ⟨-, q, hq, hroutes⟩ := laneAt_single hresolved hlane.symm
  obtain rfl : p = q := Option.some.inj (hp.symm.trans hq)
  exact ⟨seen, pending :: rest, rfl, hroutes⟩

theorem RoutesTo.unique {seen more : List (PendingUpdate β)} {q : ProcessId}
    (h : RoutesTo design before seen s p) (hmore : RoutesTo design before (seen ++ more) s q) :
    p = q := by
  rw [routesTo_iff] at h hmore
  rcases h.1 with hp | ⟨hopen, hp, -⟩
  · rcases hmore.1 with hq | ⟨hopen, -, -⟩
    · obtain ⟨r, hr, rfl⟩ : ∃ r, directDriver design before s = some r ∧
        r.process = p := by
        simpa [Option.any_eq_true] using hp
      simpa [hr] using hq
    · refine absurd (driverValue_of_directDriver hp) (not_not.mpr ?_)
      simp only [canOpenRoute, Bool.and_eq_true, List.isEmpty_iff] at hopen
      simp [driverValue, hopen.2, findDriver]
  · exact Option.some.inj (hmore.2 _ (hp.append more))

theorem TakesDirect.unique {q : ProcessId} (hresolved : (design.signal s).resolution ≠ .none)
    (h : TakesDirect design before queue s p) (hq : TakesDirect design before queue s q) :
    p = q := by
  obtain ⟨seen, rest, hseen, hroutes⟩ := h.routes hresolved
  obtain ⟨seen', rest', hseen', hroutes'⟩ := hq.routes hresolved
  have hprefix : seen <+: queue := ⟨rest, hseen.symm⟩
  rcases prefix_or_prefix_of_prefix hprefix ⟨rest', hseen'.symm⟩ with ⟨more, rfl⟩
    | ⟨more, rfl⟩
  · exact hroutes.unique hroutes'
  · exact (hroutes'.unique hroutes).symm

theorem lane_cases (hresolved : (design.signal s).resolution ≠ .none)
    {item : Lane × PendingUpdate β}
    (hitem : item ∈ laned design before queue) : item.2.signal = s ∧ item.2.driver = d ↔
      item.1 = .driver s d ∨ (item.1 = .single s ∧ item.2.driver = d) := by
  obtain ⟨lane, pending⟩ := item
  obtain ⟨seen, rest, -, rfl⟩ := mem_laned.mp hitem
  constructor
  · rintro ⟨rfl, rfl⟩
    cases hlane : laneAt design before seen pending with
    | single t =>
      have hsignal := laneAt_signal design before seen pending
      rw [hlane] at hsignal
      exact .inr ⟨congrArg Lane.single hsignal, rfl⟩
    | driver t e =>
      obtain ⟨rfl, rfl, -⟩ := laneAt_driver hlane
      exact .inl rfl
  · rintro (hdriver | ⟨hsingle, rfl⟩)
    · exact ⟨(laneAt_driver hdriver).1, (laneAt_driver hdriver).2.1⟩
    · exact ⟨(laneAt_single hresolved hsingle).1, rfl⟩

theorem updatesIn_driver (hresolved : (design.signal s).resolution ≠ .none)
    (hnone : ∀ p, d = some p → ¬ TakesDirect design before queue s p) :
    updatesIn design before queue (.driver s d) = updatesOf queue s d := by
  rw [updatesOf, filter_laned design before, updatesIn, itemsOf]
  refine congrArg (map Prod.snd) (filter_congr fun item hitem => decide_eq_decide.mpr ?_)
  rw [lane_cases hresolved hitem, or_iff_left]
  rintro ⟨hsingle, hdriver⟩
  obtain ⟨lane, pending⟩ := item
  obtain rfl : lane = .single s := hsingle
  obtain ⟨seen, rest, -, hlane⟩ := mem_laned.mp hitem
  obtain ⟨-, p, hp, -⟩ := laneAt_single hresolved hlane.symm
  exact hnone p (hdriver.symm.trans hp) ⟨pending, hitem, hp⟩

theorem updatesIn_single (hresolved : (design.signal s).resolution ≠ .none)
    (hdirect : TakesDirect design before queue s p)
    (hnone : updatesIn design before queue (.driver s (some p)) = []) :
    updatesIn design before queue (.single s) = updatesOf queue s (some p) := by
  rw [updatesOf, filter_laned design before, updatesIn, itemsOf]
  refine congrArg (map Prod.snd) (filter_congr fun item hitem => decide_eq_decide.mpr ?_)
  rw [lane_cases hresolved hitem, or_iff_right fun hlane => ?_]
  · refine ⟨fun hsingle => ⟨hsingle, ?_⟩, And.left⟩
    obtain ⟨lane, pending⟩ := item
    obtain rfl : lane = .single s := hsingle
    obtain ⟨seen, rest, -, hlane⟩ := mem_laned.mp hitem
    obtain ⟨-, q, hq, -⟩ := laneAt_single hresolved hlane.symm
    rw [hdirect.unique hresolved ⟨pending, hitem, hq⟩]
    exact hq
  · simp only [updatesIn, itemsOf, map_eq_nil_iff, filter_eq_nil_iff, decide_eq_true_eq] at hnone
    exact hnone item hitem hlane

theorem updatesIn_unresolved (hnone : (design.signal s).resolution = .none) :
    updatesIn design before queue (.single s) = updatesTo queue s := by
  rw [updatesTo, filter_laned design before, updatesIn, itemsOf]
  refine congrArg (map Prod.snd) (filter_congr fun item hitem => decide_eq_decide.mpr ?_)
  obtain ⟨lane, pending⟩ := item
  obtain ⟨seen, rest, -, rfl⟩ := mem_laned.mp hitem
  refine ⟨fun hlane => ?_, fun hsignal => ?_⟩
  · exact (laneAt_signal design before seen pending).symm.trans (congrArg Lane.signal hlane)
  · obtain rfl : pending.signal = s := hsignal
    simp [laneAt, hnone]

variable (h : Staged design before queue (state, staging))
include h

theorem Staged.slot (lane : Lane) : slotOf staging lane =
    if updatesIn design before queue lane = [] then none
    else some
      ((updatesIn design before queue lane).foldl applied (laneStart design before lane)) := by
  rw [h.slots, accumulated, updatesIn]
  simp [foldl_map]

theorem Staged.slot_ne_none {lane : Lane} {pending : PendingUpdate β} :
    (lane, pending) ∈ laned design before queue → slotOf staging lane ≠ none := by
  rw [ne_eq, h.slot_eq_none]
  exact fun hmem hnone => hnone _ hmem rfl

theorem Staged.pending_of_slot (lane : Lane) (hslot : slotOf staging lane ≠ none) :
    ∃ pending, (lane, pending) ∈ laned design before queue := by
  rw [ne_eq, h.slot_eq_none] at hslot
  simpa using hslot

end Lanes

section Installation

variable {before state state' : State β} {queue : List (PendingUpdate β)} {staging : Staging β}
  {s : SignalId} {d : Option ProcessId} {p : ProcessId}

theorem length_resolvedDriverValue (hs : Sized design state) (s : SignalId) :
    (resolvedDriverValue design state s).length = design.width s := by
  unfold resolvedDriverValue driverResolution
  split_ifs
  · exact design.length_lastResolved s
  · split
    · next r hd _ =>
      have hr := hs s r (by simp [hd])
      dsimp only
      split_ifs
      · exact (design.length_driverForce _ _ _).trans hr
      · exact hr
      · exact design.length_resolve s _ _
    · exact design.length_resolve s _ _

def rowEntries (design : Design β) (staging : Staging β) (state : State β) :
    List (SignalId × List β) :=
  ((staging.unresolvedSignals ++ staging.directSignals.filter fun s =>
    !staging.resolvedMarked s).map fun s => (s, (staging.unresolvedScratch s).getD [])) ++
  staging.resolvedSignals.map fun s => (s, resolvedDriverValue design state s)

variable (h : Staged design before queue (state, staging))
include h

theorem Staged.no_drivers (hnone : (design.signal s).resolution = .none) :
    staging.driverScratch s = [] := by
  cases hstaged : staging.driverScratch s with
  | nil => rfl
  | cons entry rest =>
    obtain ⟨pending, hmem⟩ := h.pending_of_slot (.driver s entry.driver)
      (by simp [slotOf, hstaged, stagedEntry])
    obtain ⟨seen, _, -, hlane⟩ := mem_laned.mp hmem
    exact absurd hnone (laneAt_driver hlane.symm).2.2

theorem Staged.mem_direct : s ∈ staging.directSignals ↔
    (design.signal s).resolution ≠ .none ∧ ∃ p, TakesDirect design before queue s p := by
  rw [h.shape.direct.2]
  refine and_congr_right fun hresolved => ⟨fun hslot => ?_, ?_⟩
  · obtain ⟨pending, hmem⟩ := h.pending_of_slot (.single s) hslot
    obtain ⟨seen, _, -, hlane⟩ := mem_laned.mp hmem
    obtain ⟨-, p, hp, -⟩ := laneAt_single hresolved hlane.symm
    exact ⟨p, pending, hmem, hp⟩
  · rintro ⟨p, pending, hmem, -⟩
    exact h.slot_ne_none hmem

section Direct
variable (hresolved : (design.signal s).resolution ≠ .none)
  (hdirect : TakesDirect design before queue s p)
include hresolved hdirect

theorem Staged.direct_value : driverValue state s (some p) ≠ none := fun hnone => by
  obtain ⟨hbefore, hclosed⟩ := h.opened.value_none.mp hnone
  obtain ⟨seen, rest, rfl, hroutes⟩ := hdirect.routes hresolved
  rcases hroutes.1 with hdirect | ⟨-, hopens, -⟩
  · exact driverValue_of_directDriver hdirect hbefore
  · exact hclosed (hopens.append rest)

theorem Staged.sole_iff (hbefore : Valid design before) :
    (∃ r, state.drivers s = [r]) ↔ ∀ q, Opens design before queue s (some q) → q = p := by
  have hvalue := h.direct_value hresolved hdirect
  obtain ⟨found, hfound⟩ : ∃ r, findDriver (state.drivers s) p = some r := by
    simpa [driverValue, Option.map_eq_none_iff, ← Option.ne_none_iff_exists'] using hvalue
  constructor
  · rintro ⟨r, hr⟩ q hopens
    have hother : findDriver (state.drivers s) q ≠ none := fun hnone => by
      have := h.opened.value s (some q)
      simp [driverValue, hnone, hopens] at this
    simp only [hr, findDriver, find?_cons] at hfound hother
    by_cases hp : r.process = p
    · by_cases hq : r.process = q
      · exact hq.symm.trans hp
      · simp [hq] at hother
    · simp [hp] at hfound
  · intro hsole
    have hfew := h.opened.few s p hsole
    have hlength : (state.drivers s).length ≤ 1 := by
      obtain ⟨seen, rest, rfl, hroutes⟩ := hdirect.routes hresolved
      rcases hroutes.1 with hany | ⟨hopen, -, -⟩
      · have hstored := driverValue_of_directDriver hany
        obtain ⟨r, hr, -⟩ : ∃ r, directDriver design before s = some r ∧ r.process = p := by
          simpa [Option.any_eq_true] using hany
        rw [(directDriver_spec hbefore hr).1, if_neg] at hfew
        · exact hfew
        · exact fun hopens => hstored (by simpa using hopens.2.1)
      · simp only [canOpenRoute, Bool.and_eq_true, List.isEmpty_iff] at hopen
        rw [hopen.2] at hfew
        exact hfew.trans (by split_ifs <;> simp)
    have hne : state.drivers s ≠ [] := fun hnil => by simp [hnil, findDriver] at hfound
    exact length_eq_one_iff.mp (le_antisymm hlength (length_pos_iff.mpr hne))

end Direct

theorem Staged.slot_of_opens (hopens : Opens design before queue s d) :
    slotOf staging (.driver s d) ≠ none := fun hslot => by
  obtain ⟨hresolved, hnone, hslice⟩ := hopens
  cases hupdates : updatesOf queue s d with
  | nil => simp [hupdates] at hslice
  | cons first others =>
    obtain ⟨seen, rest, rfl, hseen, hfirst, -⟩ := filter_eq_cons_iff.mp hupdates
    obtain ⟨rfl, rfl⟩ : first.signal = s ∧ first.driver = d := by simpa using hfirst
    have hnew : IsFirstSlice design before seen first := by
      refine ⟨hresolved, by simpa using hnone, ?_, ?_⟩
      · simpa [updatesOf] using hseen
      · simpa [hupdates, Option.isSome_iff_ne_none] using hslice
    exact h.slot_ne_none (mem_laned.mpr ⟨seen, rest, rfl, rfl⟩) (laneAt_first hnew ▸ hslot)

variable (hsole : ∀ s ∈ staging.directSignals, ∃ r, state.drivers s = [r])

omit h in
theorem RoutesTo.eligible (hbefore : Valid design before) (h : RoutesTo design before queue s p) :
    eligible (design.signal s) = true := by
  rcases h.1 with hany | ⟨hopen, -, -⟩
  · obtain ⟨r, hr, -⟩ : ∃ r, directDriver design before s = some r ∧ r.process = p := by
      simpa [Option.any_eq_true] using hany
    exact (directDriver_spec hbefore hr).2.2.1
  · simp only [canOpenRoute, Bool.and_eq_true] at hopen
    exact hopen.1.1.1

theorem Staged.direct_slot (hs : s ∈ staging.directSignals) :
    ∃ value, staging.unresolvedScratch s = some value :=
  Option.ne_none_iff_exists'.mp ((h.shape.direct.2 s).mp hs).2

section
include hsole

theorem Staged.installs_direct : Installs design state (fun s d =>
        if s ∈ staging.directSignals ∧ (state.drivers s).head?.any (d = some ·.process) = true
        then staging.unresolvedScratch s else none)
      (installedDirect state staging staging.directSignals).state where
  value := by
    intro s d
    by_cases hs : s ∈ staging.directSignals
    · obtain ⟨r, hd⟩ := hsole s hs
      obtain ⟨value, hv⟩ := h.direct_slot hs
      cases d with
      | none => simp [driverValue, installedDirect, hd]
      | some p =>
        by_cases hp : r.process = p
        · simp [driverValue, installedDirect, hs, hd, hv, findDriver, hp]
        · simp [driverValue, installedDirect, hs, hd, findDriver, hp, Ne.symm hp]
    · cases d <;> simp [driverValue, installedDirect, hs]
  other := by
    intro s hn
    have hs : s ∉ staging.directSignals := fun hs => by
      obtain ⟨r, hd⟩ := hsole s hs
      obtain ⟨value, hv⟩ := h.direct_slot hs
      simpa [hs, hd, hv] using hn (some r.process)
    simp [installedDirect, hs]
  driven := rfl
  sized := by
    intro hst s found hf
    by_cases hs : s ∈ staging.directSignals
    · obtain ⟨r, hd⟩ := hsole s hs
      obtain ⟨value, hv⟩ := h.direct_slot hs
      obtain rfl : found = { r with value } := by simpa [installedDirect, hs, hd, hv] using hf
      exact h.shape.width (.single s) value hv
    · exact hst s found (by simpa [installedDirect, hs] using hf)

end

theorem Staged.installs : ∃ state', staging.driverSignals.foldlM (installDrivers design staging)
        (installedDirect state staging staging.directSignals).state = .ok state' ∧
      Installs design (installedDirect state staging staging.directSignals).state
        (fun s d => stagedEntry (staging.driverScratch s) d) state' := by
  obtain ⟨state', hf, hin⟩ := installDrivers_run h.shape staging.driverSignals
    h.shape.drivers.1 (installedDirect state staging staging.directSignals).state
  refine ⟨state', hf, hin.congr fun s d => ?_⟩
  split_ifs with hs
  · rfl
  · have hni : staging.driverScratch s = [] := by
      simpa using (not_congr (h.shape.drivers.2 s)).mp hs
    simp [hni, stagedEntry]

theorem Staged.mem_singles :
    s ∈ staging.unresolvedSignals ++
    (staging.directSignals.filter fun s => !staging.resolvedMarked s) ↔
      staging.unresolvedScratch s ≠ none ∧ staging.driverScratch s = [] := by
  have hm : staging.resolvedMarked s = false ↔ staging.driverScratch s = [] := by
    rw [Bool.eq_false_iff, ne_eq, h.shape.marked, not_not]
  rw [mem_append, mem_filter, h.shape.unresolved.2, h.shape.direct.2, Bool.not_eq_true', hm]
  constructor
  · rintro (⟨hn, hs⟩ | ⟨⟨_, hs⟩, he⟩)
    · exact ⟨hs, h.no_drivers hn⟩
    · exact ⟨hs, he⟩
  · rintro ⟨hs, he⟩
    by_cases hn : (design.signal s).resolution = .none
    · exact .inl ⟨hn, hs⟩
    · exact .inr ⟨⟨hn, hs⟩, he⟩

theorem Staged.singles_nodup : (staging.unresolvedSignals ++
      (staging.directSignals.filter fun s => !staging.resolvedMarked s)).Nodup := by
  rw [nodup_append]
  refine ⟨h.shape.unresolved.1, h.shape.direct.1.filter _, ?_⟩
  rintro s hs t ht rfl
  exact ((h.shape.direct.2 s).mp (mem_filter.mp ht).1).1 ((h.shape.unresolved.2 s).mp hs).1

theorem Staged.mem_rowEntries {value : List β} :
    (s, value) ∈ rowEntries design staging state' ↔
      (staging.unresolvedScratch s = some value ∧ staging.driverScratch s = []) ∨
        (staging.driverScratch s ≠ [] ∧ value = resolvedDriverValue design state' s) := by
  rw [rowEntries, mem_append, mem_map, mem_map]
  refine or_congr ⟨?_, ?_⟩ ⟨?_, ?_⟩
  · rintro ⟨t, ht, heq⟩
    obtain ⟨rfl, rfl⟩ := Prod.mk.inj heq
    obtain ⟨hs, he⟩ := h.mem_singles.mp ht
    obtain ⟨value, hv⟩ := Option.ne_none_iff_exists'.mp hs
    exact ⟨by simp [hv], he⟩
  · rintro ⟨hs, he⟩
    exact ⟨s, h.mem_singles.mpr ⟨by simp [hs], he⟩, by simp [hs]⟩
  · rintro ⟨t, ht, heq⟩
    obtain ⟨rfl, rfl⟩ := Prod.mk.inj heq
    exact ⟨(h.shape.resolved.2 t).mp ht, rfl⟩
  · rintro ⟨hen, rfl⟩
    exact ⟨s, (h.shape.resolved.2 s).mpr hen, rfl⟩

theorem Staged.rowEntries_nodup (state' : State β) :
    ((rowEntries design staging state').map (·.1)).Nodup := by
  have hid : ∀ (f : SignalId → List β) (signals : List SignalId),
      (signals.map fun s => (s, f s)).map (·.1) = signals := fun f signals => by
    simp [Function.comp_def]
  rw [rowEntries, map_append, hid, hid, nodup_append]
  refine ⟨h.singles_nodup, h.shape.resolved.1, ?_⟩
  rintro s hs t ht rfl
  exact (h.shape.resolved.2 s).mp ht (h.mem_singles.mp hs).2

theorem Staged.mem_rowEntries_signal :
    s ∈ (rowEntries design staging state').map (·.1) ↔
      ∃ pending ∈ queue, pending.signal = s := by
  have hq : ∀ l : Lane, slotOf staging l ≠ none →
      ∃ pending ∈ queue, pending.signal = l.signal := fun l hs => by
    obtain ⟨pending, hmem⟩ := h.pending_of_slot l hs
    obtain ⟨seen, rest, rfl, rfl⟩ := mem_laned.mp hmem
    exact ⟨pending, by simp, (laneAt_signal design before seen pending).symm⟩
  have hsc : staging.driverScratch s ≠ [] ↔
      ∃ d, stagedEntry (staging.driverScratch s) d ≠ none := by
    cases staging.driverScratch s with
    | nil => simp [stagedEntry]
    | cons entry r => simpa using ⟨entry.driver, by simp [stagedEntry]⟩
  rw [mem_map]
  constructor
  · rintro ⟨⟨t, value⟩, hent, rfl⟩
    rcases h.mem_rowEntries.mp hent with ⟨hs, _⟩ | ⟨hen, _⟩
    · exact hq (.single t) (by simp [slotOf, hs])
    · obtain ⟨d, hd⟩ := hsc.mp hen
      exact hq (.driver t d) hd
  · rintro ⟨pending, hp, rfl⟩
    obtain ⟨seen, rest, hqueue⟩ := append_of_mem hp
    have hs := h.slot_ne_none (mem_laned.mpr ⟨seen, rest, hqueue, rfl⟩)
    by_cases he : staging.driverScratch pending.signal = []
    · obtain ⟨value, hv⟩ :
        ∃ value, staging.unresolvedScratch pending.signal = some value := by
        refine Option.ne_none_iff_exists'.mp ?_
        unfold laneAt at hs
        split_ifs at hs
        · exact hs
        · simp [slotOf, he, stagedEntry] at hs
      exact ⟨(pending.signal, value), h.mem_rowEntries.mpr (.inl ⟨hv, he⟩), rfl⟩
    · exact ⟨_, h.mem_rowEntries.mpr (.inr ⟨he, rfl⟩), rfl⟩

theorem Staged.rows (hf : ∀ pending ∈ queue, Fits design pending) (state' : State β) :
    ∃ rows r',
    (installedDirect state staging staging.directSignals).staging.unresolvedSignals.foldlM
        (appendUnresolved design (installedDirect state staging staging.directSignals).staging)
          .empty =
          .ok rows ∧ staging.resolvedSignals.foldlM
          (appendResolved design state') rows = .ok r' ∧
      Holds r' (rowEntries design staging state') := by
  have hn := h.rowEntries_nodup state'
  have hc : ∀ s ∈ (rowEntries design staging state').map (·.1), s < design.signalCount := by
    intro s hs
    obtain ⟨pending, hp, rfl⟩ := h.mem_rowEntries_signal.mp hs
    exact (hf pending hp).signal
  rw [rowEntries, map_append, nodup_append] at hn
  rw [rowEntries, map_append] at hc
  set staging' := (installedDirect state staging staging.directSignals).staging with hst
  have hsi : (staging'.unresolvedSignals.map fun s => (s, (staging'.unresolvedScratch s).getD [])) =
      (staging.unresolvedSignals ++ staging.directSignals.filter fun s =>
        !staging.resolvedMarked s).map fun s => (s, (staging.unresolvedScratch s).getD []) := by
    refine map_congr_left fun s hs => ?_
    have hm : staging.resolvedMarked s = false := by
      rw [Bool.eq_false_iff, ne_eq, h.shape.marked, not_not]
      exact (h.mem_singles.mp hs).2
    simp [staging', installedDirect, hm]
  obtain ⟨rows, hro, hh⟩ := appendRows_ok design
    (fun s => (staging'.unresolvedScratch s).getD []) staging'.unresolvedSignals holds_empty
    h.singles_nodup (fun s hs => hc s
      (mem_append_left _ (mem_map.mpr ⟨_, mem_map_of_mem hs, rfl⟩))) (by simp)
  rw [hsi] at hh
  have hr : ∀ s ∈ staging.resolvedSignals,
      s ∈ (staging.resolvedSignals.map fun s => (s, resolvedDriverValue design state' s)).map
        (·.1) :=
    fun s hs => mem_map.mpr ⟨_, mem_map_of_mem hs, rfl⟩
  obtain ⟨r', hr', hh'⟩ := appendRows_ok design
    (resolvedDriverValue design state') staging.resolvedSignals hh h.shape.resolved.1
    (fun s hs => hc s (mem_append_right _ (hr s hs)))
    fun s hs hme => hn.2.2 s hme s (hr s hs) rfl
  exact ⟨rows, r', hro, hr', hh'⟩

theorem Staged.direct_resolution (hs : s ∈ staging.directSignals)
    (hem : staging.driverScratch s = [])
    (hin : Installs design (installedDirect state staging staging.directSignals).state
      (fun s d => stagedEntry (staging.driverScratch s) d) state') :
    some (resolvedDriverValue design state' s) = staging.unresolvedScratch s := by
  obtain ⟨value, hv⟩ := h.direct_slot hs
  obtain ⟨hresolved, p, hdirect⟩ := h.mem_direct.mp hs
  have hquiet : ∀ d, ¬ Opens design before queue s d := fun d hopens =>
    h.slot_of_opens hopens (by simp [slotOf, hem, stagedEntry])
  have hroutes : RoutesTo design before queue s p := by
    obtain ⟨seen, rest, rfl, hroutes⟩ := hdirect.routes hresolved
    refine routesTo_iff.mpr ⟨.inl ?_, fun d hopens => absurd hopens (hquiet d)⟩
    exact hroutes.1.resolve_right fun hopen => hquiet _ (hopen.2.1.append rest)
  obtain ⟨r, hrc, -⟩ : ∃ r, directDriver design state s = some r ∧ r.process = p := by
    simpa [Option.any_eq_true] using (h.opened.route s p).mpr hroutes
  obtain ⟨hd, hexternal, hel, -, hst, hre⟩ := directDriver_spec h.opened.valid hrc
  obtain ⟨hr, he⟩ := hin.other s fun d => by simp [hem, stagedEntry]
  have hr : state'.drivers s = [{ r with value }] := by
    simpa [installedDirect, hs, show state.drivers s = [r] from hd, hv] using hr
  have he : state'.external s = none := he.trans hexternal
  simp only [eligible, Bool.and_eq_true, Bool.not_eq_true'] at hel
  obtain ⟨⟨⟨⟨hid, him⟩, hc⟩, _⟩, hf⟩ := hel
  have hk : (design.signal s).resolution ≠ .vhdlUserFunction := by
    intro hk
    simp [identitySingleDriver, hk] at hid
  simp [resolvedDriverValue, driverResolution, hk, hr, he, hid, him, hc, hf, hst, hre, hv]

def appliedValue (design : Design β) (before : State β) (queue : List (PendingUpdate β))
    (s : SignalId) (d : Option ProcessId) : Option (List β) :=
  if updatesOf queue s d = [] then driverValue before s d else
    some ((updatesOf queue s d).foldl applied
      ((driverValue before s d).getD (design.signal s).initialDriver))

/-- What the two stores leave a driver: the list is installed over the direct slot. -/
def installedValue (design : Design β) (before : State β) (queue : List (PendingUpdate β))
    (s : SignalId) (d : Option ProcessId) : Option (List β) :=
  if updatesIn design before queue (.driver s d) = [] then appliedValue design before queue s d
  else some ((updatesIn design before queue (.driver s d)).foldl applied
    ((driverValue before s d).getD (design.signal s).initialDriver))

include hsole in
theorem Staged.driver_installed (hbefore : Valid design before)
    (hresolved : (design.signal s).resolution ≠ .none)
    (hin : Installs design (installedDirect state staging staging.directSignals).state
      (fun s d => stagedEntry (staging.driverScratch s) d) state') :
    driverValue state' s d = installedValue design before queue s d := by
  rw [hin.value, (h.installs_direct hsole).value]
  have hslot := h.slot (.driver s d)
  rw [slotOf] at hslot
  rw [hslot, installedValue]
  by_cases hlist : updatesIn design before queue (.driver s d) = []
  swap
  · rw [if_neg hlist, if_neg hlist]
    rfl
  rw [if_pos hlist, if_pos hlist, Option.none_or]
  by_cases hdirect : ∃ p, d = some p ∧ TakesDirect design before queue s p
  · obtain ⟨p, rfl, hdirect⟩ := hdirect
    have hs : s ∈ staging.directSignals := h.mem_direct.mpr ⟨hresolved, p, hdirect⟩
    obtain ⟨r, hr⟩ := hsole s hs
    have hp : r.process = p := by
      have hvalue := h.direct_value hresolved hdirect
      by_contra hne
      exact hvalue (by simp [driverValue, hr, findDriver, hne])
    obtain ⟨value, hvalue⟩ := h.direct_slot hs
    have hsingle := h.slot (.single s)
    rw [updatesIn_single hresolved hdirect hlist] at hsingle
    obtain ⟨seen, rest, rfl, hroutes⟩ := hdirect.routes hresolved
    rw [hroutes.laneStart hbefore hresolved] at hsingle
    have hchanged : s ∈ staging.directSignals ∧
        (state.drivers s).head?.any (some p = some ·.process) = true := ⟨hs, by simp [hr, hp]⟩
    rw [if_pos hchanged, appliedValue]
    have hsingle : staging.unresolvedScratch s = _ := hsingle
    rw [hsingle]
    split_ifs with hnone
    · rw [hsingle, if_pos hnone] at hvalue
      simp at hvalue
    · rfl
  · have hnone : updatesOf queue s d = [] := by
      rw [← hlist, updatesIn_driver hresolved fun p hp htakes => hdirect ⟨p, hp, htakes⟩]
    rw [if_neg, Option.none_or, h.opened.value, if_neg (by simp [Opens, hnone]), appliedValue,
      if_pos hnone]
    rintro ⟨hs, hhead⟩
    obtain ⟨r, hr⟩ := hsole s hs
    obtain ⟨-, p, htakes⟩ := h.mem_direct.mp hs
    have hvalue := h.direct_value hresolved htakes
    have hp : r.process = p := by
      by_contra hne
      exact hvalue (by simp [driverValue, hr, findDriver, hne])
    exact hdirect ⟨p, by simpa [hr, hp] using hhead, htakes⟩

end Installation

section Outcome

variable {before : State β} {queue : List (PendingUpdate β)}

/-- Every update of the queue was applied, and every updated signal committed once with the value
that `resolved` gives for the drivers after the commit. -/
structure Applied (design : Design β) (resolved : State β → SignalId → List β)
    (before : State β) (queue : List (PendingUpdate β)) (after : Committed β) : Prop where
  driver : ∀ s d, (design.signal s).resolution ≠ .none →
    driverValue after.state s d = appliedValue design before queue s d
  driven : ∀ s, (design.signal s).resolution = .none →
    after.state.driven s = (updatesTo queue s).foldl applied (before.driven s)
  increasing : (after.published.map (·.1)).Pairwise (· < ·)
  updated : ∀ s, s ∈ after.published.map (·.1) ↔ ∃ pending ∈ queue, pending.signal = s
  value : ∀ s value, (s, value) ∈ after.published → value =
    if (design.signal s).resolution = .none then after.state.driven s else resolved after.state s

theorem Staged.outcome {state : State β} {staging : Staging β}
    (h : Staged design before queue (state, staging)) (hb : Valid design before)
    (hf : ∀ pending ∈ queue, Fits design pending)
    (hsta : queue.foldlM (stageUpdate design) (before, .empty) = .ok (state, staging))
    (hsole : ∀ s ∈ staging.directSignals, ∃ r, state.drivers s = [r]) :
    ∃ after, commitUpdates design before queue = .ok after ∧
      (∀ s d, (design.signal s).resolution ≠ .none →
        driverValue after.state s d = installedValue design before queue s d) ∧
      ((∀ s d, (design.signal s).resolution ≠ .none →
        installedValue design before queue s d = appliedValue design before queue s d) →
        Applied design (resolvedDriverValue design) before queue after) := by
  obtain ⟨state', hins, hen⟩ := h.installs
  have hin := (h.installs_direct hsole).trans hen
  have hdi : staging.directSignals.foldlM installDirect ⟨state, staging, fun _ => false⟩ =
      .ok (installedDirect state staging staging.directSignals) :=
    installDirect_run h.shape.direct.1 fun s hs => ⟨h.direct_slot hs, hsole s hs⟩
  obtain ⟨rows, r', hrw, hr', hh⟩ := h.rows hf state'
  set entries := rowEntries design staging state' with hro
  set wordCount := (design.signalCount + 63) / 64
  have hno : (entries.map (·.1)).Nodup := h.rowEntries_nodup state'
  have hm : ∀ {entry}, entry ∈ orderedEntries entries wordCount ↔ entry ∈ entries := by
    refine mem_orderedEntries (fun entry he => ?_) hno
    obtain ⟨pending, hp, hsg⟩ :=
      h.mem_rowEntries_signal.mp (mem_map_of_mem he)
    have hlt := (hf pending hp).signal
    rw [hsg] at hlt
    exact Nat.lt_of_lt_of_le hlt (by omega)
  have hma : ∀ s, (installedDirect state staging staging.directSignals).directMarked s = true →
      (design.signal s).hasChargeStrength = false := by
    intro s hs
    have hs : s ∈ staging.directSignals := by
      simp only [installedDirect, Bool.and_eq_true, decide_eq_true_eq] at hs
      exact hs.1
    obtain ⟨hresolved, p, hdirect⟩ := h.mem_direct.mp hs
    obtain ⟨seen, rest, -, hroutes⟩ := hdirect.routes hresolved
    have hel := hroutes.eligible hb
    simp only [eligible, Bool.and_eq_true, Bool.not_eq_true'] at hel
    exact hel.1.1.2
  have hdr : state'.driven = before.driven := hin.driven.trans h.opened.driven
  have hw : ∀ entry ∈ orderedEntries entries wordCount,
      (state'.driven entry.1).length = entry.2.length := by
    rintro ⟨s, value⟩ he
    rw [hdr, hb.driven_width]
    rcases h.mem_rowEntries.mp (hm.mp he) with ⟨hsl, _⟩ | ⟨_, hv⟩
    · exact (h.shape.width (.single s) value hsl).symm
    · subst hv
      exact (length_resolvedDriverValue (hin.sized h.opened.valid.driver_width) s).symm
  have hinc : ((orderedEntries entries wordCount).map (·.1)).Pairwise (· < ·) :=
    orderedEntries_increasing wordCount
  obtain ⟨driven, hfo, hse, hk⟩ := commitEntries_ok (orderedEntries entries wordCount)
    ⟨state', []⟩ (hinc.imp Nat.ne_of_lt) hma hw
  have hsi : ∀ s, s ∈ (orderedEntries entries wordCount).map (·.1) ↔
      ∃ pending ∈ queue, pending.signal = s := by
    intro s
    have hrow : s ∈ entries.map (·.1) ↔ ∃ pending ∈ queue, pending.signal = s :=
      h.mem_rowEntries_signal
    rw [← hrow, mem_map, mem_map]
    exact exists_congr fun entry => and_congr_left' hm
  have hvalues : ∀ s d, (design.signal s).resolution ≠ .none →
      driverValue { state' with driven } s d = installedValue design before queue s d :=
    fun s d hresolved => by
      have hvalue := h.driver_installed (d := d) hsole hb hresolved hen
      cases d <;> exact hvalue
  refine ⟨⟨{ state' with driven }, orderedEntries entries wordCount⟩, ?_, hvalues,
    fun happlied =>
      ⟨fun s d hr => (hvalues s d hr).trans (happlied s d hr), ?_, hinc, hsi, ?_⟩⟩
  · refine bind_ok.mpr ⟨_, hsta, bind_ok.mpr ⟨_, hdi, bind_ok.mpr ⟨_, hins,
      bind_ok.mpr ⟨_, hrw, bind_ok.mpr ⟨_, hr', ?_⟩⟩⟩⟩⟩
    exact (hh.commitWords hno _ _ _).trans hfo
  · intro s hn
    have hsl : staging.unresolvedScratch s = _ := h.slot (.single s)
    rw [updatesIn_unresolved hn, laneStart, if_pos hn] at hsl
    by_cases hs : s ∈ (orderedEntries entries wordCount).map (·.1)
    · obtain ⟨⟨s, value⟩, he, rfl⟩ := mem_map.mp hs
      refine (hse (s, value) he).trans ?_
      rcases h.mem_rowEntries.mp (hm.mp he) with ⟨hv, _⟩ | ⟨hd, _⟩
      · rw [hv] at hsl
        split_ifs at hsl
        simpa [storedValue, hn] using hsl
      · exact absurd (h.no_drivers hn) hd
    · have hem : updatesTo queue s = [] := by
        rw [hsi] at hs
        simpa [updatesTo] using hs
      rw [hem]
      exact (hk s hs).trans (congrFun hdr s)
  · intro s value he
    split_ifs with hn
    · simpa [storedValue, hn] using (hse (s, value) he).symm
    · rcases h.mem_rowEntries.mp (hm.mp he) with ⟨hv, hem⟩ | ⟨_, hv⟩
      · have hs : s ∈ staging.directSignals :=
          (h.shape.direct.2 s).mpr ⟨hn, by simp [hv]⟩
        have hre := h.direct_resolution hs hem hen
        rw [hv] at hre
        exact (Option.some.inj hre).symm
      · exact hv

/-- Where a process took the direct route, staging opens no other process, and what else the
process queued, for the list, comes to the value of all its updates. -/
def Reconciles (design : Design β) (before : State β) (queue : List (PendingUpdate β)) : Prop :=
  ∀ s p, (design.signal s).resolution ≠ .none → TakesDirect design before queue s p →
    (∀ q, Opens design before queue s (some q) → q = p) ∧
      installedValue design before queue s (some p) = appliedValue design before queue s (some p)

theorem installedValue_of_indirect {s : SignalId} {d : Option ProcessId}
    (hresolved : (design.signal s).resolution ≠ .none)
    (hnone : ∀ p, d = some p → ¬ TakesDirect design before queue s p) :
    installedValue design before queue s d = appliedValue design before queue s d := by
  rw [installedValue, updatesIn_driver hresolved hnone]
  split_ifs with hlist
  · rfl
  · rw [appliedValue, if_neg hlist]

theorem Reconciles.applied (h : Reconciles design before queue) (s : SignalId)
    (d : Option ProcessId) (hresolved : (design.signal s).resolution ≠ .none) :
    installedValue design before queue s d = appliedValue design before queue s d := by
  by_cases hdirect : ∃ p, d = some p ∧ TakesDirect design before queue s p
  · obtain ⟨p, rfl, hdirect⟩ := hdirect
    exact (h s p hresolved hdirect).2
  · exact installedValue_of_indirect hresolved fun p hp htakes => hdirect ⟨p, hp, htakes⟩

theorem commit_outcome (hbefore : Valid design before)
    (hfits : ∀ pending ∈ queue, Fits design pending) :
    (∃ after, commitUpdates design before queue = .ok after ∧
      Applied design (resolvedDriverValue design) before queue after) ↔
      Reconciles design before queue := by
  obtain ⟨⟨state, staging⟩, hstaging, h⟩ := stage_queue hbefore queue hfits
  constructor
  · rintro ⟨after, hcommit, happlied⟩ s p hresolved hdirect
    have hsole : ∀ s ∈ staging.directSignals, ∃ r, state.drivers s = [r] := by
      obtain ⟨staged, hstaged, hrest⟩ := bind_ok.mp hcommit
      obtain rfl : staged = (state, staging) := Except.ok.inj (hstaged.symm.trans hstaging)
      obtain ⟨installed, hinstalled, -⟩ := bind_ok.mp hrest
      exact fun s hs => installDirect_sole hinstalled hs
    obtain ⟨after', hcommit', hvalues, -⟩ := h.outcome hbefore hfits hstaging hsole
    obtain rfl : after = after' := Except.ok.inj (hcommit.symm.trans hcommit')
    refine ⟨(h.sole_iff hresolved hdirect hbefore).mp ?_, ?_⟩
    · exact hsole s (h.mem_direct.mpr ⟨hresolved, p, hdirect⟩)
    · rw [← hvalues s _ hresolved, happlied.driver s _ hresolved]
  · intro hreconciles
    have hsole : ∀ s ∈ staging.directSignals, ∃ r, state.drivers s = [r] := fun s hs => by
      obtain ⟨hresolved, p, hdirect⟩ := h.mem_direct.mp hs
      exact (h.sole_iff hresolved hdirect hbefore).mpr (hreconciles s p hresolved hdirect).1
    obtain ⟨after, hcommit, -, happlied⟩ := h.outcome hbefore hfits hstaging hsole
    exact ⟨after, hcommit, happlied hreconciles.applied⟩

end Outcome

def joined : Logic4 → Logic4 → Logic4
  | .z, b => b
  | a, .z => a
  | a, b => if a = b then a else .x

def wire : Design Logic4 where
  signalCount := 1
  signal := fun _ => ⟨.svWire, [.z, .z], false, false, false, false⟩
  defaultStrength := fun _ => true
  resolve := fun _ records external => (List.range 2).map fun i =>
    (records.map (·.value) ++ external.toList).foldl
      (fun bit value => joined bit (value.getD i .z)) .z
  driverForce := fun _ _ value => value
  lastResolved := fun _ => [.z, .z]
  charged := fun _ value => value
  length_resolve := fun _ _ _ => by simp
  length_driverForce := fun _ _ _ => rfl
  length_lastResolved := fun _ => rfl
  length_charged := fun _ _ => rfl

def wireDriven : State Logic4 where
  drivers := fun _ => [⟨1, [.zero, .zero], true, false⟩]
  external := fun _ => none
  driven := fun _ => [.zero, .zero]
  route := fun _ => some 1

theorem wireDriven_valid : Valid wire wireDriven where
  route := fun _ p hp => ⟨rfl, _, rfl, by simpa [wireDriven] using hp, rfl, rfl⟩
  driver_width := fun _ r hr => by
    obtain rfl : r = ⟨1, [.zero, .zero], true, false⟩ := by simpa [wireDriven] using hr
    rfl
  external_width := fun _ _ hv => by simp [wireDriven] at hv
  driven_width := fun _ => rfl

def wholeUpdate (driver : Option ProcessId) (value : List Logic4) : PendingUpdate Logic4 :=
  ⟨0, driver, none, value⟩

def bitUpdate (driver : Option ProcessId) (value : Logic4) : PendingUpdate Logic4 :=
  ⟨0, driver, some 0, [value]⟩

theorem wholeUpdate_fits (driver : Option ProcessId) (a b : Logic4) :
    Fits wire (wholeUpdate driver [a, b]) := ⟨Nat.zero_lt_one, rfl⟩

theorem bitUpdate_fits (driver : Option ProcessId) (value : Logic4) :
    Fits wire (bitUpdate driver value) := ⟨Nat.zero_lt_one, Nat.zero_lt_one, Nat.le_succ 1⟩

def listedQueue : List (PendingUpdate Logic4) :=
  [wholeUpdate (some 1) [.one, .one], wholeUpdate (some 2) [.z, .one], bitUpdate (some 2) .one,
    bitUpdate (some 1) .zero]

def openingQueue : List (PendingUpdate Logic4) :=
  [bitUpdate none .one, bitUpdate (some 1) .zero, wholeUpdate (some 1) [.one, .one]]

theorem listedQueue_reconciles : Reconciles wire wireDriven listedQueue := by
  have hlaned : laned wire wireDriven listedQueue =
      [(.single 0, wholeUpdate (some 1) [.one, .one]),
        (.driver 0 (some 2), wholeUpdate (some 2) [.z, .one]),
        (.driver 0 (some 2), bitUpdate (some 2) .one),
        (.single 0, bitUpdate (some 1) .zero)] := rfl
  rintro s p - ⟨pending, hmem, hp⟩
  obtain ⟨rfl, rfl⟩ : s = 0 ∧ p = 1 := by
    rw [hlaned] at hmem
    simp only [mem_cons, Prod.mk.injEq, Lane.single.injEq, reduceCtorEq, false_and, not_mem_nil,
      or_false, false_or] at hmem
    rcases hmem with ⟨rfl, rfl⟩ | ⟨rfl, rfl⟩ <;>
      exact ⟨rfl, (Option.some.inj hp).symm⟩
  refine ⟨fun q hopens => ?_, by rw [installedValue, updatesIn, hlaned]; rfl⟩
  have hopened : ∀ pending ∈ listedQueue, Opens wire wireDriven listedQueue 0 pending.driver →
      pending.driver = some 1 := by decide
  obtain ⟨first, hfirst, -, hdriver⟩ := hopens.mem
  exact Option.some.inj (hdriver ▸ hopened first hfirst (hdriver ▸ hopens))

theorem openingQueue_reconciles : Reconciles wire wireDriven openingQueue := by
  have hlaned : laned wire wireDriven openingQueue =
      [(.driver 0 none, bitUpdate none .one), (.driver 0 (some 1), bitUpdate (some 1) .zero),
        (.driver 0 (some 1), wholeUpdate (some 1) [.one, .one])] := rfl
  rintro s p - ⟨pending, hmem, -⟩
  simp [hlaned] at hmem

def slicedQueue : List (PendingUpdate Logic4) :=
  [wholeUpdate (some 1) [.one, .one], bitUpdate none .one, bitUpdate (some 1) .zero]

section Interleaving
variable {before : State β} {queue queue' : List (PendingUpdate β)} {s : SignalId}

def Routable (design : Design β) (before : State β) (s : SignalId) : Prop :=
  (directDriver design before s).isSome = true ∨ canOpenRoute design before s = true

theorem reconciles_of_closed (hclosed : ∀ s d, Routable design before s →
    ¬ Opens design before queue s d) : Reconciles design before queue := by
  intro s p hresolved hdirect
  obtain ⟨seen, rest, hqueue, hroutes⟩ := hdirect.routes hresolved
  have hroutable : Routable design before s := by
    refine hroutes.1.imp (fun hany => ?_) And.left
    cases hr : directDriver design before s <;> simp_all
  have hquiet := fun d => hclosed s d hroutable
  refine ⟨fun q hopens => absurd hopens (hquiet _), ?_⟩
  have hany := hroutes.1.resolve_right fun hopen =>
    hquiet _ (hqueue ▸ hopen.2.1.append rest)
  rw [installedValue, if_pos]
  refine map_eq_nil_iff.mpr (filter_eq_nil_iff.mpr fun item hitem => ?_)
  rw [decide_eq_true_eq]
  obtain ⟨lane, pending⟩ := item
  obtain ⟨seen', rest', hqueue', rfl⟩ := mem_laned.mp hitem
  intro hlane
  obtain ⟨hsignal, hdriver, -⟩ := laneAt_driver hlane
  have hroutes' : RoutesTo design before seen' s p := routesTo_iff.mpr
    ⟨.inl hany, fun d hopens => absurd (hqueue' ▸ hopens.append _) (hquiet d)⟩
  simp [laneAt, hdriver, hsignal, hroutes'] at hlane

end Interleaving

end FsimRuntime.UpdateCommit

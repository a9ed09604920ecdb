import FsimRuntime.UpdateCommitLanes
import FsimRuntime.UpdateCommitRows

/-!
# Installation of the staged drivers

The staged values of direct single drivers go into their records, those of the
other drivers into their slots, and the rows into the driven values.
-/

namespace FsimRuntime.UpdateCommit
open List Function

variable {β : Type} {design : Design β}

section Direct

variable {state : State β} {stage : Staging β} {signals : List SignalId}

def installedDirect (state : State β) (staging : Staging β) (signals : List SignalId) :
    Installing β where
  state := { state with
    drivers := fun s =>
      if s ∈ signals then (state.drivers s).map fun record =>
        { record with value := (staging.unresolvedScratch s).getD [] }
      else state.drivers s }
  staging := { staging with
    unresolvedScratch := fun s =>
      if s ∈ signals ∧ staging.resolvedMarked s = true then none
      else staging.unresolvedScratch s
    unresolvedSignals :=
      staging.unresolvedSignals ++ signals.filter fun s => !staging.resolvedMarked s }
  directMarked := fun s => decide (s ∈ signals) && !staging.resolvedMarked s

theorem installDirect_ok {s : SignalId} {value : List β} {r : DriverRecord β}
    (hs : s ∉ signals) (hv : stage.unresolvedScratch s = some value)
    (hr : state.drivers s = [r]) :
    installDirect (installedDirect state stage signals) s =
      .ok (installedDirect state stage (signals ++ [s])) := by
  have hd : update (installedDirect state stage signals).state.drivers s
      [{ r with value }] = (installedDirect state stage (signals ++ [s])).state.drivers :=
    update_eq_iff.mpr
      ⟨by simp [installedDirect, hr, hv], fun t ht => by simp [installedDirect, ht]⟩
  cases hm : stage.resolvedMarked s with
  | true =>
    have hsc : update (installedDirect state stage signals).staging.unresolvedScratch
        s none = (installedDirect state stage (signals ++ [s])).staging.unresolvedScratch :=
      update_eq_iff.mpr
        ⟨by simp [installedDirect, hm], fun t ht => by simp [installedDirect, ht]⟩
    have hma : (installedDirect state stage signals).directMarked =
        (installedDirect state stage (signals ++ [s])).directMarked := by
      funext t
      by_cases ht : t = s
      · subst ht
        simp [installedDirect, hm]
      · simp [installedDirect, ht]
    simp only [installDirect, installedDirect, hs, hv, hr, false_and, if_false, hm,
      filter_append, filter_cons, Bool.not_true, Bool.false_eq_true,
      filter_nil, append_nil] at hd hsc hma ⊢
    rw [hd, hsc, hma]
    rfl
  | false =>
    have hsc : (installedDirect state stage signals).staging.unresolvedScratch =
        (installedDirect state stage (signals ++ [s])).staging.unresolvedScratch := by
      funext t
      by_cases ht : t = s
      · subst ht
        simp [installedDirect, hm]
      · simp [installedDirect, ht]
    have hma : update (installedDirect state stage signals).directMarked s true =
        (installedDirect state stage (signals ++ [s])).directMarked :=
      update_eq_iff.mpr
        ⟨by simp [installedDirect, hm], fun t ht => by simp [installedDirect, ht]⟩
    simp only [installDirect, installedDirect, hs, hv, hr, false_and, if_false, hm,
      filter_append, filter_cons, append_assoc] at hd hsc hma ⊢
    rw [hd, hsc, hma]
    rfl

theorem installDirect_run (hn : signals.Nodup)
    (h : ∀ s ∈ signals, (∃ value, stage.unresolvedScratch s = some value) ∧
      ∃ r, state.drivers s = [r]) :
    signals.foldlM installDirect ⟨state, stage, fun _ => false⟩ =
      .ok (installedDirect state stage signals) := by
  induction signals using reverseRecOn with
  | nil => simp [installedDirect, pure, Except.pure]
  | append_singleton signals s ih =>
    rw [nodup_append] at hn
    have hs : s ∉ signals := fun hm => hn.2.2 s hm s (by simp) rfl
    obtain ⟨⟨value, hv⟩, r, hr⟩ := h s (by simp)
    rw [foldlM_append, ih hn.1 fun t ht => h t (by simp [ht])]
    show ([s].foldlM installDirect (installedDirect state stage signals)) = _
    rw [foldlM_cons, installDirect_ok hs hv hr]
    rfl

theorem installDirect_inv {installing installed : Installing β} {t : SignalId}
    (h : installDirect installing t = .ok installed) : (∃ r, installing.state.drivers t = [r]) ∧
      ∀ s, s ≠ t → installed.state.drivers s = installing.state.drivers s := by
  obtain ⟨state, stage, marked⟩ := installing
  simp only [installDirect] at h
  split at h
  · next value r hvalue hr =>
    refine ⟨⟨r, hr⟩, fun s hs => ?_⟩
    split_ifs at h <;> obtain rfl := Except.ok.inj h <;> exact update_of_ne hs _ _
  · simp at h

theorem installDirect_sole {installing installed : Installing β}
    (h : signals.foldlM installDirect installing = .ok installed) {s : SignalId}
    (hs : s ∈ signals) :
    ∃ r, installing.state.drivers s = [r] := by
  induction signals generalizing installing with
  | nil => simp at hs
  | cons t signals ih =>
    rw [foldlM_cons] at h
    obtain ⟨next, hnext, hrest⟩ := bind_ok.mp h
    obtain ⟨hsole, hkept⟩ := installDirect_inv hnext
    by_cases ht : s = t
    · exact ht ▸ hsole
    · rw [← hkept s ht]
      exact ih hrest ((mem_cons.mp hs).resolve_left ht)

end Direct

section Drivers

def Sized (design : Design β) (state : State β) : Prop :=
  ∀ s, ∀ record ∈ state.drivers s, record.value.length = design.width s

structure Installs (design : Design β) (state : State β)
    (changed : SignalId → Option ProcessId → Option (List β)) (state' : State β) : Prop where
  value : ∀ s d, driverValue state' s d = (changed s d).or (driverValue state s d)
  other : ∀ s, (∀ d, changed s d = none) →
    state'.drivers s = state.drivers s ∧ state'.external s = state.external s
  driven : state'.driven = state.driven
  sized : Sized design state → Sized design state'

variable {state state₁ state₂ : State β}
  {changed changed' : SignalId → Option ProcessId → Option (List β)}

theorem Installs.refl (state : State β) : Installs design state (fun _ _ => none) state :=
  ⟨fun _ _ => rfl, fun _ _ => ⟨rfl, rfl⟩, rfl, id⟩

theorem Installs.trans (h : Installs design state changed state₁)
    (h' : Installs design state₁ changed' state₂) :
    Installs design state (fun s d => (changed' s d).or (changed s d)) state₂ where
  value := fun s d => by rw [h'.value, h.value, Option.or_assoc]
  other := fun s hs => by
    simp only [Option.or_eq_none_iff] at hs
    have hf := h.other s fun d => (hs d).2
    have hse := h'.other s fun d => (hs d).1
    exact ⟨hse.1.trans hf.1, hse.2.trans hf.2⟩
  driven := h'.driven.trans h.driven
  sized := fun hsi => h'.sized (h.sized hsi)

theorem Installs.congr (h : Installs design state changed state₁)
    (hc : ∀ s d, changed s d = changed' s d) : Installs design state changed' state₁ := by
  have : changed = changed' := funext fun s => funext (hc s)
  exact this ▸ h

theorem driverSlot_spec (design : Design β) (state : State β) (p : ProcessId) (s : SignalId) :
    (∃ r record, (driverSlot design state p s).1.drivers =
        update state.drivers s r ∧ findDriver r p = some record ∧
      (∀ q, q ≠ p → findDriver r q = findDriver (state.drivers s) q) ∧
      ∀ found ∈ r, found ∈ state.drivers s ∨ found.value.length = design.width s) ∧
    (driverSlot design state p s).1.external = state.external ∧
      (driverSlot design state p s).1.driven = state.driven := by
  cases hf : findDriver (state.drivers s) p with
  | some record =>
    rw [driverSlot_found hf]
    exact ⟨⟨state.drivers s, record, by simp, hf, fun _ _ => rfl, fun _ h => .inl h⟩, rfl,
      rfl⟩
  | none =>
    rw [driverSlot_new hf]
    set added : DriverRecord β :=
      ⟨p, (design.signal s).initialDriver, design.defaultStrength p, false⟩
    have hin : ∀ q, findDriver (insertRecord added (state.drivers s)) q =
        if p = q then some added else findDriver (state.drivers s) q :=
      fun q => findDriver_insertRecord hf
    refine ⟨⟨_, added, rfl, by simp [hin], fun q hq => by simp [hin, Ne.symm hq], ?_⟩, ?_,
      rfl⟩
    · intro found hfo
      rcases mem_insertRecord.mp hfo with rfl | hfo
      · exact .inr rfl
      · exact .inl hfo
    · simp [refreshRoute]

def changeOf (signal : SignalId) (update : PendingDriverCommit β) :
    SignalId → Option ProcessId → Option (List β) :=
  fun s d => if s = signal ∧ d = update.driver then some update.value else none

variable {s : SignalId}

theorem setDriver_installs {p : ProcessId} {value : List β}
    (hv : value.length = design.width s) : ∃ s', setDriver design state p s value = .ok s' ∧
      Installs design state (changeOf s ⟨some p, value⟩) s' := by
  obtain ⟨⟨r, record, hd, hfi, ho, hsi⟩, he, hdr⟩ :=
    driverSlot_spec design state p s
  refine ⟨{ (driverSlot design state p s).1 with
    drivers := update (driverSlot design state p s).1.drivers s
      (setRecord ((driverSlot design state p s).1.drivers s) p value) }, ?_, ?_, ?_, hdr, ?_⟩
  · simp only [setDriver, hv, ne_eq]
    rfl
  · intro t d
    cases d with
    | none => simp [driverValue, changeOf, he]
    | some q =>
      by_cases ht : t = s
      · subst ht
        by_cases hq : q = p
        · subst hq
          simp [driverValue, changeOf, hd, findDriver_setRecord, hfi]
        · simp [driverValue, changeOf, hd, findDriver_setRecord, hq, ho q hq]
      · simp [driverValue, changeOf, hd, ht]
  · intro t hn
    have ht : t ≠ s := by
      simpa [changeOf] using hn (some p)
    simp [hd, he, ht]
  · intro hs t found hf
    by_cases ht : t = s
    · subst ht
      simp only [hd, update_self, setRecord, mem_map] at hf
      obtain ⟨old, hold, rfl⟩ := hf
      split_ifs
      · exact hv
      · exact (hsi old hold).elim (hs t old) id
    · simp only [hd, update_of_ne ht] at hf
      exact hs t found hf

theorem installDriver_installs (state : State β) {update : PendingDriverCommit β}
    (hv : update.value.length = design.width s) : ∃ s', installDriver design s state update =
      .ok s' ∧ Installs design state (changeOf s update) s' := by
  obtain ⟨driver, value⟩ := update
  cases driver with
  | some p => exact setDriver_installs hv
  | none =>
    have hs : ∀ t, t ≠ s →
        (externalDriverSlot design state s).1.external t = state.external t := by
      intro t ht
      unfold externalDriverSlot
      cases state.external s <;> simp [ht]
    have hk : (externalDriverSlot design state s).1.drivers = state.drivers ∧
        (externalDriverSlot design state s).1.driven = state.driven := by
      unfold externalDriverSlot
      cases state.external s <;> exact ⟨rfl, rfl⟩
    refine ⟨refreshRoute design { (externalDriverSlot design state s).1 with
      external := update (externalDriverSlot design state s).1.external s (some value) } s,
      rfl, ?_, ?_, hk.2, ?_⟩
    · intro t d
      cases d with
      | some q => simp [driverValue, changeOf, refreshRoute, hk.1]
      | none =>
        by_cases ht : t = s
        · subst ht
          simp [driverValue, changeOf, refreshRoute]
        · simp [driverValue, changeOf, refreshRoute, ht, hs t ht]
    · intro t hn
      have ht : t ≠ s := by
        simpa [changeOf] using hn none
      simp [refreshRoute, hk.1, ht, hs t ht]
    · intro hst t found hf
      simp only [hk.1] at hf
      exact hst t found hf

theorem installDriver_run (staged : List (PendingDriverCommit β))
    (hn : (staged.map (·.driver)).Nodup)
    (hv : ∀ update ∈ staged, update.value.length = design.width s) (state : State β) :
    ∃ s', staged.foldlM (installDriver design s) state = .ok s' ∧
      Installs design state (fun t d => if t = s then stagedEntry staged d else none) s' := by
  induction staged generalizing state with
  | nil => exact ⟨state, rfl, (Installs.refl state).congr fun t d => by simp [stagedEntry]⟩
  | cons update staged ih =>
    rw [map_cons, nodup_cons] at hn
    obtain ⟨state₁, hf, hins⟩ := installDriver_installs state (hv update (by simp))
    obtain ⟨state₂, hr, hin⟩ := ih hn.2 (fun u hu => hv u (by simp [hu])) state₁
    refine ⟨state₂, ?_, (hins.trans hin).congr fun t d => ?_⟩
    · rw [foldlM_cons, hf]
      exact hr
    · by_cases ht : t = s
      · by_cases hd : d = update.driver
        · subst hd
          have hno := stagedEntry_eq_none.mpr hn.1
          simp only [changeOf, hno]
          simp [stagedEntry]
        · simp [changeOf, stagedEntry, hd, Ne.symm hd]
      · simp [changeOf, ht]

theorem installDrivers_run {stage : Staging β} (hs : Shape design stage)
    (signals : List SignalId) (hn : signals.Nodup) (state : State β) :
    ∃ s', signals.foldlM (installDrivers design stage) state = .ok s' ∧ Installs design state
        (fun t d => if t ∈ signals then stagedEntry (stage.driverScratch t) d else none) s' := by
  induction signals generalizing state with
  | nil => exact ⟨state, rfl, (Installs.refl state).congr fun t d => by simp⟩
  | cons s signals ih =>
    rw [nodup_cons] at hn
    have hv : ∀ update ∈ stage.driverScratch s, update.value.length = design.width s := by
      intro update hu
      refine hs.width (.driver s update.driver) update.value ?_
      have hf := stagedEntry_of_mem (hs.entries s) hu
      exact hf
    obtain ⟨state₁, hfi, hins⟩ :=
      installDriver_run (stage.driverScratch s) (hs.entries s) hv state
    obtain ⟨state₂, hr, hin⟩ := ih hn.2 state₁
    refine ⟨state₂, ?_, (hins.trans hin).congr fun t d => ?_⟩
    · rw [foldlM_cons, installDrivers, hfi]
      exact hr
    · by_cases ht : t = s
      · subst ht
        simp [hn.1]
      · simp [ht]

end Drivers

end FsimRuntime.UpdateCommit

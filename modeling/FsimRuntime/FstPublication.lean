import FsimRuntime.FstWaves

/-!
# What a publication writes

A container that is published is the one of its declarations, its initial values
and its changes in the order of their identities; it does not depend on the
limits, nor on how the changes were staged.
-/

namespace FsimRuntime.Fst

open ExternalSort KeyedSort List

section Handles

variable {m : TraceDeclarationModel} {handles handles' : Handles}

def DistinctHandles (handles : Handles) : Prop := (handles.map (·.1)).Nodup

theorem assignHandle_distinct {entry : TraceDeclarationEntry} (h : DistinctHandles handles)
    (hass : assignHandle m handles entry = .ok handles') : DistinctHandles handles' := by
  rw [assignHandle] at hass
  split at hass
  · cases hass
    exact h
  · obtain ⟨declared, -, hass⟩ := bind_ok.mp hass
    obtain ⟨_, hn, hass⟩ := bind_ok.mp hass
    obtain ⟨type, -, hass⟩ := bind_ok.mp hass
    cases hass
    have hno : ∀ handle ∈ handles, handle.1 ≠ declared.id := by simpa [refuse_ok] using hn
    rw [DistinctHandles, map_append, nodup_append]
    refine ⟨h, by simp, fun a ha b hb => ?_⟩
    obtain ⟨handle, hh, rfl⟩ := mem_map.mp ha
    obtain rfl := mem_singleton.mp hb
    exact hno handle hh

theorem foldlM_keeps {α β : Type} {f : β → α → Except Error β} {P : β → Prop}
    (hs : ∀ b a b', P b → f b a = .ok b' → P b') {l : List α} {b b' : β} (hb : P b)
    (h : l.foldlM f b = .ok b') : P b' := by
  induction l generalizing b with
  | nil => cases h; exact hb
  | cons a l ih =>
    obtain ⟨next, hn, h⟩ := foldlM_cons_ok.mp h
    exact ih (hs b a next hb hn) h

theorem assignHandles_distinct {g : List (ℕ × TraceDeclarationEntry)} {d scope : ℕ}
    (h : DistinctHandles handles) (ha : assignHandles m g d handles scope = .ok handles') :
    DistinctHandles handles' := by
  induction d generalizing handles handles' scope with
  | zero => cases ha; exact h
  | succ d ih =>
    obtain ⟨e, he, ha⟩ := bind_ok.mp ha
    have hk := foldlM_keeps (fun _ _ _ => assignHandle_distinct) h he
    exact foldlM_keeps (fun _ _ _ hb hc => ih hb hc) hk ha

theorem hierarchy_distinct {l : FstWriterLimits} {bytes : Bytes}
    (h : hierarchy l m = .ok (handles, bytes)) : DistinctHandles handles := by
  obtain ⟨g, -, h⟩ := bind_ok.mp h
  obtain ⟨assigned, ha, h⟩ := bind_ok.mp h
  obtain ⟨_, -, h⟩ := bind_ok.mp h
  cases h
  have hn : DistinctHandles [] := nodup_nil
  exact assignHandles_distinct hn ha

theorem handleOf_iff {signal i : ℕ} (h : DistinctHandles handles) (hi : i < handles.length) :
    handleOf handles signal = some (i + 1) ↔ handles[i].1 = signal := by
  rw [handleOf, Option.map_eq_some_iff]
  constructor
  · rintro ⟨index, hin, he⟩
    obtain rfl : index = i := Nat.succ.inj he
    obtain ⟨_, hf, -⟩ := findIdx?_eq_some_iff_getElem.mp hin
    exact of_decide_eq_true hf
  · intro he
    refine ⟨i, findIdx?_eq_some_iff_getElem.mpr ⟨hi, decide_eq_true he, fun j hj => ?_⟩,
      rfl⟩
    have hn := pairwise_iff_getElem.mp h j i (by simpa using hj.trans hi) (by simpa using hi) hj
    simp only [getElem_map] at hn
    exact fun hf => hn ((of_decide_eq_true hf).trans he.symm)

end Handles

section Agreement

variable {l l' : FstWriterLimits} {m : TraceDeclarationModel} {handles : Handles}
variable {s : TraceSourceDeclaration} {type : TraceTypeDeclaration} {k : TraceDeclarationKind}
variable {signal target : ℕ} {p : Bytes}

theorem provenanceRecord_agree : Agree (provenanceRecord l s k signal target)
      (provenanceRecord l' s k signal target) := by
  rw [provenanceRecord, provenanceRecord]
  split
  · exact .refl _
  · exact .bind (.unit _ _) fun _ => .refl _

theorem emitEntry_agree (entry : TraceDeclarationEntry) :
    Agree (emitEntry l m handles entry) (emitEntry l' m handles entry) := by
  refine .bind (.refl _) fun view => .bind (.unit _ _) fun _ => .bind (.refl _) fun type =>
    .bind (.unit _ _) fun _ => .bind (.refl _) fun _ => .bind (.refl _) fun handle => ?_
  exact .bind (.bind (.unit _ _) fun _ => .refl _) fun _ =>
    .bind (provenanceRecord_agree) fun _ => .refl _

theorem emitAll_agree {α : Type} {emit e' : α → Except Error Bytes}
    (h : ∀ a, Agree (emit a) (e' a)) (l : List α) : Agree (emitAll emit l) (emitAll e' l) := by
  induction l with
  | nil => exact .refl _
  | cons a l ih => exact .bind (h a) fun _ => .bind ih fun _ => .refl _

theorem emitEntries_agree (g : List (ℕ × TraceDeclarationEntry)) (d scope : ℕ) :
    Agree (emitEntries l m handles g d scope) (emitEntries l' m handles g d scope) := by
  induction d generalizing scope with
  | zero => exact .refl _
  | succ d ih =>
    refine .bind (.bind (emitAll_agree emitEntry_agree _) fun _ => .refl _) fun _ =>
      .bind (emitAll_agree (fun c => ?_) _) fun _ => .refl _
    refine .bind (.unit _ _) fun _ => .bind (.refl _) fun s => ?_
    have hb : Agree (do
          let body ← emitEntries l m handles g d c.id
          pure (scopeBegin (fstScopeType c s) c.name s.ownerIdentity ++ body ++ scopeEnd))
        (do
          let body ← emitEntries l' m handles g d c.id
          pure (scopeBegin (fstScopeType c s) c.name s.ownerIdentity ++ body ++
            scopeEnd)) := .bind (ih c.id) fun _ => .refl _
    split
    · exact .bind (.unit _ _) fun _ => hb
    · exact hb

theorem hierarchy_agree : Agree (hierarchy l m) (hierarchy l' m) :=
  .bind (.refl _) fun g => .bind (.refl _) fun _ =>
    .bind (emitEntries_agree g _ _) fun _ => .refl _

end Agreement

section Publication

variable {w : FstWriter} {handles : Handles} {finalTime : ℕ} {times : List ℕ}
variable {events : List SpoolEvent}

def changeOf (event : SpoolEvent) : Change := (event.event, event.value)

theorem chains_eq (hd : DistinctHandles handles)
    (hha : ∀ e ∈ events, (handleOf handles e.event.signal).isSome)
    (initial : List (ℕ × FstEncodedValue)) : zipWith (chainOf initial) handles
        (groups (·.handle - 1) handles.length (events.map (placedIn handles times))) =
      handles.map fun (signal, _) =>
        initialChain initial signal ++
          ((events.map changeOf).filter (·.1.signal = signal)).map fun (e, value) =>
            (times.idxOf e.time, value) := by
  refine ext_getElem (by simp [groups]) fun i hi hi' => ?_
  have hl : i < handles.length := by simpa using hi'
  simp only [getElem_zipWith, getElem_map, groups, getElem_range, chainOf]
  rw [filter_map, map_map, filter_map, map_map]
  have hs : events.filter ((fun e : SpoolEvent => decide (e.handle - 1 = i)) ∘
        placedIn handles times) =
      events.filter
        ((fun change : Change => decide (change.1.signal = handles[i].1)) ∘ changeOf) := by
    refine filter_congr fun e he => decide_eq_decide.mpr ?_
    obtain ⟨handle, hh⟩ := Option.isSome_iff_exists.mp (hha e he)
    have hp := (handleOf_pos hh).1
    simp only [placedIn, hh, Option.getD_some, changeOf]
    have hif := @handleOf_iff handles e.event.signal i hd hl
    rw [hh, Option.some.injEq] at hif
    omega
  rw [hs]
  rfl

variable {initial : List (ℕ × FstEncodedValue)} {initialTime : ℕ} {l : FstWriterLimits}

theorem beginTimes_ok (h : beginTimes l initialTime initial = .ok times) :
    times = initialTimes initialTime initial := by
  rw [beginTimes] at h
  rw [initialTimes]
  split at h
  · next he =>
    rw [if_pos he]
    exact (Except.ok.inj h).symm
  · next hs =>
    rw [if_neg hs]
    obtain ⟨_, -, h⟩ := bind_ok.mp h
    exact (Except.ok.inj h).symm

theorem initialTimes_increasing : (initialTimes initialTime initial).Pairwise (· < ·) := by
  rw [initialTimes]
  split <;> simp

theorem initialTimes_mem {t : ℕ} (h : t ∈ initialTimes initialTime initial) :
    t = initialTime := by
  rw [initialTimes] at h
  split at h
  · nomatch h
  · exact mem_singleton.mp h

structure Staged (writer : FstWriter) : Prop where
  sorted : writer.staging.SortedRuns eventKey
  begun : ∀ event ∈ writer.staging.events, writer.initialTime ≤ event.event.time

theorem indexEvents_ok (hs : Staged w) (hd : DistinctHandles handles)
    (h : w.indexEvents handles finalTime = .ok (times, events)) :
    ∃ changes : List Change, Increasing (·.1.identity) changes ∧
      changes.Perm (w.staging.events.map changeOf) ∧
      (∀ change ∈ changes, change.1.time ≤ finalTime) ∧
      times = (contentOf w.initialTime w.initialValues handles changes).times ∧
      ∃ groups : List (List SpoolEvent), events = groups.flatten ∧
      groups.length = handles.length ∧
        (∀ i g, groups[i]? = some g → ∀ e ∈ g, e.handle = i + 1) ∧
        List.zipWith (chainOf w.initialValues) handles groups =
          (contentOf w.initialTime w.initialValues handles changes).chains := by
  obtain ⟨begun, hbe, h⟩ := bind_ok.mp h
  obtain ⟨pass, hpa, h⟩ := bind_ok.mp h
  obtain ⟨_, -, h⟩ := bind_ok.mp h
  cases h
  obtain rfl := beginTimes_ok hbe
  obtain ⟨hp, hm⟩ := mergedEvents_spec hs.sorted
  have hin := Indexed.of_fold empty_sorted hpa
  have hinc := hin.increasing rfl hm
  have htm : (mergedEvents eventKey w.staging).Pairwise fun a b =>
      a.event.time ≤ b.event.time := hinc.imp time_le_of_identity
  have hb : ∀ t ∈ initialTimes w.initialTime w.initialValues,
      ∀ e ∈ mergedEvents eventKey w.staging, t ≤ e.event.time := by
    intro t ht e he
    rw [initialTimes_mem ht]
    exact hs.begun e (hp.mem_iff.mp he)
  have hta : pass.times.Pairwise (· < ·) := by
    rw [hin.times]
    refine extendedBy_increasing initialTimes_increasing (fun t ht u hu => ?_)
      (pairwise_map.mpr htm)
    obtain ⟨e, he, rfl⟩ := mem_map.mp hu
    exact hb t ht e he
  have hpl : pass.staging.events.Perm
      ((mergedEvents eventKey w.staging).map (placedIn handles pass.times)) := by
    have hst := hin.staged
    rw [placeEvents_eq initialTimes_increasing hb htm] at hst
    rw [hin.times]
    exact hst
  have hme : ∀ e ∈ mergedEvents eventKey w.staging, e.event.time ∈ pass.times := by
    intro e he
    rw [hin.times]
    exact mem_extendedBy (mem_map_of_mem he)
  have hse := mergedEvents_placed hin.sorted hinc hta hme hin.handled hpl
  have hti : pass.times = (contentOf w.initialTime w.initialValues handles
      ((mergedEvents eventKey w.staging).map changeOf)).times := by
    rw [hin.times, contentOf, map_map]
    rfl
  refine ⟨(mergedEvents eventKey w.staging).map changeOf, pairwise_map.mpr hinc,
    hp.map changeOf, ?_, hti, _, hse, by simp [groups], ?_, ?_⟩
  · intro change hc
    obtain ⟨e, he, rfl⟩ := mem_map.mp hc
    exact hin.inTime e he
  · intro i g hg e he
    obtain ⟨hi, rfl⟩ := List.getElem?_eq_some_iff.mp hg
    simp only [groups, getElem_map, getElem_range, mem_filter, decide_eq_true_eq] at he
    obtain ⟨o, ho, rfl⟩ := mem_map.mp he.1
    obtain ⟨handle, hh⟩ := Option.isSome_iff_exists.mp (hin.handled o ho)
    have hpo := (handleOf_pos hh).1
    have hcl := he.2
    simp only [placedIn, hh, Option.getD_some] at hcl ⊢
    omega
  · rw [chains_eq hd hin.handled, hti]
    rfl

theorem valueSections_ok
    {c : TraceContent} {groups : List (List SpoolEvent)} {sections : ValueSections}
    (hl : groups.length = handles.length)
    (hg : ∀ i g, groups[i]? = some g → ∀ e ∈ g, e.handle = i + 1)
    (hc : zipWith (chainOf initial) handles groups = c.chains)
    (h : FstWriter.valueSections l initial handles c.times groups.flatten =
      .ok sections) : sections = c.sections handles := by
  obtain ⟨state, hwa, h⟩ := bind_ok.mp h
  obtain ⟨_, -, h⟩ := bind_ok.mp h
  obtain ⟨position, hp, h⟩ := bind_ok.mp h
  obtain ⟨_, -, hp⟩ := bind_ok.mp hp
  cases h
  cases hp
  have hw := writeWaves_ok hl hg hwa
  have ha : (zipWith (chainOf initial) handles groups).length = handles.length := by simp [hl]
  rw [hw.waves, hw.active, hw.positions, ha, Nat.sub_self, replicate_zero, append_nil, hc]
  rfl

def containerOf (settings : FstSettings) (model : TraceDeclarationModel) (handles : Handles)
    (hierarchyBytes : Bytes) (initialTime finalTime : ℕ)
    (initialValues : List (ℕ × FstEncodedValue))
    (changes : List Change) : Bytes :=
  assemble settings model handles hierarchyBytes initialTime finalTime
    ((contentOf initialTime initialValues handles changes).sections handles)

theorem publishContainer_ok (hst : Staged w) {bytes : Bytes}
    (h : w.publishContainer finalTime = .ok bytes) : ∃ m handles encoded changes,
      w.declarations = some m ∧ hierarchy w.limits m = .ok (handles, encoded) ∧
      Increasing (fun change : Change => change.1.identity) changes ∧
      changes.Perm (w.staging.events.map changeOf) ∧
      (∀ change ∈ changes, change.1.time ≤ finalTime) ∧
      bytes = containerOf w.settings m handles encoded w.initialTime finalTime w.initialValues
      changes := by
  obtain ⟨m, hm, h⟩ := bind_ok.mp h
  obtain ⟨_, -, h⟩ := bind_ok.mp h
  obtain ⟨_, -, h⟩ := bind_ok.mp h
  obtain ⟨⟨handles, encoded⟩, hb, h⟩ := bind_ok.mp h
  obtain ⟨⟨times, events⟩, hind, h⟩ := bind_ok.mp h
  obtain ⟨_, -, h⟩ := bind_ok.mp h
  obtain ⟨_, -, h⟩ := bind_ok.mp h
  obtain ⟨sections, hs, h⟩ := bind_ok.mp h
  obtain ⟨_, -, h⟩ := bind_ok.mp h
  obtain ⟨_, -, h⟩ := bind_ok.mp h
  cases h
  have hd : w.declarations = some m := by
    rw [FstWriter.requireDeclarations] at hm
    split at hm
    · next hca => rw [hca, Except.ok.inj hm]
    · nomatch hm
  have hh : hierarchy w.limits m = .ok (handles, encoded) := by
    obtain ⟨⟨_, _⟩, hh, hb⟩ := bind_ok.mp hb
    obtain ⟨_, -, hb⟩ := bind_ok.mp hb
    cases hb
    exact hh
  obtain ⟨changes, hin, hp, hit, rfl, groups, rfl, hl, hg, hc⟩ :=
    indexEvents_ok hst (hierarchy_distinct hh) hind
  refine ⟨m, handles, encoded, changes, hd, hh, hin, hp, hit, ?_⟩
  rw [valueSections_ok hl hg hc hs]
  rfl

end Publication

end FsimRuntime.Fst

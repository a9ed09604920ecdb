import FsimRuntime.FstSpool

/-!
# The second pass

The chains of the handles are written one after another. A handle is started
when the pass comes to a change behind it; a pass that is not refused has
written, for every handle, its initial value and its changes.
-/

namespace FsimRuntime.Fst

open KeyedSort List

section Chains

variable {type : TraceTypeDeclaration} {chain : Chain} {place : ℕ} {value : FstEncodedValue}

def lastPlace (chain : Chain) : Option ℕ := chain.getLast?.map (·.1)

theorem lastPlace_snoc : lastPlace (chain ++ [(place, value)]) = some place := by simp [lastPlace]

theorem chainChanges_snoc {p : ℕ} : chainChanges type p (chain ++ [(place, value)]) =
      chainChanges type p chain ++ changeBytes type (place - (lastPlace chain).getD p) value := by
  induction chain generalizing p with
  | nil => simp [chainChanges, lastPlace]
  | cons head chain ih =>
    rw [cons_append, chainChanges, chainChanges, ih]
    cases hl : chain.getLast? <;> simp [lastPlace, getLast?_cons]

theorem waveChain_snoc : waveChain type (chain ++ [(place, value)]) =
      waveChain type chain ++ (if chain.isEmpty then varint 0 else []) ++
        changeBytes type (place - (lastPlace chain).getD 0) value := by
  rw [waveChain, waveChain, chainChanges_snoc]
  cases chain with
  | nil => simp [chainChanges]
  | cons head chain => simp

theorem varint_ne_nil (n : ℕ) : varint n ≠ [] := by
  rw [varint, varintGroups]
  split <;> simp

theorem waveChain_isEmpty : (waveChain type chain).isEmpty = chain.isEmpty := by
  cases chain with
  | nil => rfl
  | cons head chain =>
    have := varint_ne_nil 0
    rfl

variable {handles : Handles} {c : List Chain} {signal : ℕ} {o : ℕ} {w : List Bytes}

theorem waveChains_snoc (h : handles[c.length]? = some (signal, type)) :
    waveChains handles (c ++ [chain]) = waveChains handles c ++ [waveChain type chain] := by
  induction c generalizing handles with
  | nil =>
    cases handles with
    | nil => nomatch h
    | cons handle handles =>
      cases Option.some.inj h
      simp [waveChains]
  | cons head c ih =>
    cases handles with
    | nil => nomatch h
    | cons handle handles =>
      simpa [waveChains] using ih (by simpa using h)

theorem waveChains_length (h : c.length ≤ handles.length) :
    (waveChains handles c).length = c.length := by
  rw [waveChains, length_zipWith, Nat.min_eq_right h]

theorem chainPositions_snoc {bytes : Bytes} :
    chainPositions o (w ++ [bytes]) = chainPositions o w ++
        [if bytes.isEmpty then none else some (o + w.flatten.length + 1)] := by
  induction w generalizing o with
  | nil => simp [chainPositions]
  | cons first w ih =>
    rw [cons_append, chainPositions, chainPositions, ih, flatten_cons, length_append,
      cons_append, Nat.add_assoc o]

theorem chainPositions_length : (chainPositions o w).length = w.length := by
  induction w generalizing o with
  | nil => rfl
  | cons first w ih => rw [chainPositions, length_cons, ih, length_cons]

end Chains

section Steps

variable {l : FstWriterLimits} {handles : Handles} {initial : List (ℕ × FstEncodedValue)}
variable {c : List Chain} {chain : Chain} {state state' : WaveState}
variable {type : TraceTypeDeclaration} {signal : ℕ}

structure Writing (handles : Handles) (chains : List Chain) (state : WaveState) : Prop where
  length_le : chains.length ≤ handles.length
  handleStarted : state.handleStarted = decide (0 < chains.length)
  currentHandle : state.currentHandle = chains.length - 1
  waves : state.waves = (waveChains handles chains).flatten
  positions : state.positions =
    chainPositions 0 (waveChains handles chains) ++
      List.replicate (handles.length - chains.length) none
  active : state.active = (waveChains handles chains).countP fun chain => !chain.isEmpty
  previousTimeIndex : state.previousTimeIndex = chains.getLast?.bind lastPlace

theorem appendWaveBytes_ok {bytes : Bytes} (h : appendWaveBytes l state bytes = .ok state') :
    state' = { state with waves := state.waves ++ bytes } := by
  obtain ⟨_, -, h⟩ := bind_ok.mp h
  exact (Except.ok.inj h).symm

variable {index : ℕ}

theorem beginChain_ok (h : beginChain l state index = .ok state') : state' =
      if state.previousTimeIndex.isSome then state
      else { state with
        positions := state.positions.set index (some (state.waves.length + 1))
        waves := state.waves ++ varint 0
        active := state.active + 1 } := by
  rw [beginChain] at h
  split at h
  · next hs =>
    rw [hs]
    exact (Except.ok.inj h).symm
  · next hn =>
    obtain ⟨marked, hm, h⟩ := bind_ok.mp h
    cases h
    rw [appendWaveBytes_ok hm, hn]
    rfl

theorem Writing.appendChange (h : Writing handles (c ++ [chain]) state)
    (hh : handles[c.length]? = some (signal, type)) {place : ℕ} {value : FstEncodedValue}
    (hc : appendChange l type state c.length place value = .ok state') :
    Writing handles (c ++ [chain ++ [(place, value)]]) state' := by
  obtain ⟨begun, hb, hc⟩ := bind_ok.mp hc
  obtain ⟨bytes, hby, hc⟩ := bind_ok.mp hc
  obtain ⟨a, hap, hc⟩ := bind_ok.mp hc
  have hpr : state.previousTimeIndex = lastPlace chain := by simpa using h.previousTimeIndex
  have hl : (waveChains handles c).length = c.length :=
    waveChains_length (by have := h.length_le; simp at this; omega)
  have hw := h.waves
  have hp := h.positions
  have ha := h.active
  rw [waveChains_snoc hh] at hw hp ha
  rw [chainPositions_snoc, waveChain_isEmpty] at hp
  rw [countP_append, countP_singleton, waveChain_isEmpty] at ha
  cases hc
  rw [appendWaveBytes_ok hap, beginChain_ok hb, appendTimedWaveChange_ok hby, hpr]
  have hn : waveChains handles (c ++ [chain ++ [(place, value)]]) =
      waveChains handles c ++ [waveChain type (chain ++ [(place, value)])] := waveChains_snoc hh
  cases chain with
  | nil =>
    -- the chain begins: its place and its mark come before the change
    have hse : state.waves.length = (waveChains handles c).flatten.length := by simp [hw, waveChain]
    have hin : c.length = (chainPositions 0 (waveChains handles c)).length := by
      rw [chainPositions_length, hl]
    rw [if_neg (by simp [lastPlace])]
    refine ⟨by simpa using h.length_le, by simpa using h.handleStarted,
      by simpa using h.currentHandle, ?_, ?_, ?_, by simp [lastPlace]⟩
    · rw [hn, waveChain_snoc]
      simp [hw, lastPlace]
    · rw [hn, chainPositions_snoc, waveChain_isEmpty]
      simp only [hp, hse]
      rw [hin]
      simp
    · rw [hn, countP_append, countP_singleton, waveChain_isEmpty]
      simpa [lastPlace] using ha
  | cons head chain =>
    have hs : (lastPlace (head :: chain)).isSome := by simp [lastPlace]
    rw [if_pos hs]
    refine ⟨by simpa using h.length_le, by simpa using h.handleStarted,
      by simpa using h.currentHandle, ?_, ?_, ?_, ?_⟩
    · rw [hn, waveChain_snoc]
      simp [hw]
    · rw [hn, chainPositions_snoc, waveChain_isEmpty]
      simpa using hp
    · rw [hn, countP_append, countP_singleton, waveChain_isEmpty]
      simpa using ha
    · rw [getLast?_concat, Option.bind_some, lastPlace_snoc]

theorem Writing.startHandle (h : Writing handles c state)
    (hh : handles[c.length]? = some (signal, type))
    (hs : startHandle l handles initial { state with currentHandle := c.length } c.length =
      .ok state') :
    Writing handles (c ++ [initialChain initial signal]) state' := by
  have hlt : c.length < handles.length := (List.getElem?_eq_some_iff.mp hh).1
  have hl : handles.length - c.length = handles.length - (c.length + 1) + 1 := by omega
  have ho : Writing handles (c ++ [[]])
      { state with
        currentHandle := c.length, handleStarted := true, previousTimeIndex := none } := by
    have hn : waveChains handles (c ++ [[]]) = waveChains handles c ++ [[]] :=
      waveChains_snoc hh
    refine ⟨by simpa using Nat.succ_le_of_lt hlt, by simp, by simp, by simp [hn, h.waves], ?_, ?_,
      by simp [lastPlace]⟩
    · rw [hn, chainPositions_snoc, h.positions, hl, replicate_succ]
      simp
    · rw [hn, h.active, countP_append]
      rfl
  rw [Fst.startHandle, hh] at hs
  rw [initialChain]
  cases hv : initial.lookup signal with
  | none =>
    simp only [hv] at hs
    cases hs
    exact ho
  | some value =>
    simp only [hv] at hs
    exact ho.appendChange hh hs

theorem Writing.startThrough {r : List Chain} {f : ℕ} (h : Writing handles c state)
    (hr : r = ((handles.drop c.length).take r.length).map fun handle =>
      initialChain initial handle.1)
    (hf : r.length ≤ f) (hin : index + 1 = (c ++ r).length)
    (hs : startThrough l handles initial f state index = .ok state') :
    Writing handles (c ++ r) state' := by
  induction r generalizing c state f with
  | nil =>
    rw [append_nil] at hin ⊢
    have hdo : (state.handleStarted && decide (index ≤ state.currentHandle)) = true := by
      rw [h.handleStarted, h.currentHandle, ← Bool.decide_and, decide_eq_true_eq]
      omega
    cases f with
    | zero => cases hs; exact h
    | succ f =>
      rw [Fst.startThrough, if_pos hdo] at hs
      cases hs
      exact h
  | cons chain r ih =>
    cases f with
    | zero => nomatch hf
    | succ f =>
      rw [length_append, length_cons] at hin
      cases hd : handles.drop c.length with
      | nil => simp [hd] at hr
      | cons handle ha' =>
        have hh : handles[c.length]? = some handle := by
          rw [← head?_drop, hd]
          rfl
        simp only [hd, length_cons, take_succ_cons, map_cons, cons.injEq] at hr
        have hno : (state.handleStarted && decide (index ≤ state.currentHandle)) = false := by
          rw [h.handleStarted, h.currentHandle, ← Bool.decide_and, decide_eq_false_iff_not]
          omega
        have hc : (if state.handleStarted then state.currentHandle + 1
            else state.currentHandle) = c.length := by
          rw [h.handleStarted, h.currentHandle]
          cases c <;> simp
        rw [Fst.startThrough, hno] at hs
        simp only [hc] at hs
        obtain ⟨s, ho, hs⟩ := bind_ok.mp hs
        have hn := h.startHandle hh ho
        rw [← hr.1] at hn
        rw [append_cons]
        refine ih hn ?_ (Nat.le_of_succ_le_succ hf) (by simp; omega) hs
        rw [length_append, ← drop_drop, hd]
        exact hr.2

end Steps

section Pass

variable {l : FstWriterLimits} {handles : Handles} {initial : List (ℕ × FstEncodedValue)}
variable {c : List Chain} {chain : Chain} {state state' : WaveState}
variable {type : TraceTypeDeclaration} {signal : ℕ}

def Covers (handles : Handles) (initialValues : List (ℕ × FstEncodedValue)) (chains : List Chain)
    (state : WaveState) : Prop :=
  ∃ written rest, chains = written ++ rest ∧ Writing handles written state ∧
    rest = ((handles.drop written.length).take rest.length).map
      fun handle => initialChain initialValues handle.1

theorem Covers.pend (h : Covers handles initial c state)
    (hh : handles[c.length]? = some (signal, type)) :
    Covers handles initial (c ++ [initialChain initial signal]) state := by
  obtain ⟨w, r, rfl, hw, hr⟩ := h
  refine ⟨w, r ++ [initialChain initial signal], by simp, hw, ?_⟩
  rw [length_append] at hh
  rw [length_append, length_singleton, take_add_one, map_append, ← hr, getElem?_drop, hh]
  rfl

theorem Covers.start {f index : ℕ} (h : Covers handles initial c state)
    (hf : c.length ≤ f) (hin : index + 1 = c.length)
    (hs : startThrough l handles initial f state index = .ok state') :
    Writing handles c state' := by
  obtain ⟨w, r, rfl, hw, hr⟩ := h
  exact hw.startThrough hr (by simp at hf; omega) hin hs

def chainEntry (event : SpoolEvent) : ℕ × FstEncodedValue := (event.timeIndex, event.value)

section
variable (h : Covers handles initial (c ++ [chain]) state)
  (hh : handles[c.length]? = some (signal, type))
include h hh

theorem Covers.appendEvent {e : SpoolEvent} (he : e.handle = c.length + 1)
    (ha : appendEvent l handles initial state e = .ok state') :
    Covers handles initial (c ++ [chain ++ [chainEntry e]]) state' := by
  have hin : e.handle - 1 = c.length := by omega
  rw [Fst.appendEvent, hin, hh] at ha
  obtain ⟨_, -, ha⟩ := bind_ok.mp ha
  obtain ⟨s, hs, ha⟩ := bind_ok.mp ha
  have hw := h.start (by simp [he]) (by simp) hs
  exact ⟨_, [], (append_nil _).symm, hw.appendChange hh ha, rfl⟩

theorem Covers.appendGroup {g : List SpoolEvent} (hg : ∀ e ∈ g, e.handle = c.length + 1)
    (hf : g.foldlM (Fst.appendEvent l handles initial) state = .ok state') :
    Covers handles initial (c ++ [chain ++ g.map chainEntry]) state' := by
  induction g generalizing chain state with
  | nil =>
    cases hf
    simpa using h
  | cons e g ih =>
    obtain ⟨next, hs, hf⟩ := foldlM_cons_ok.mp hf
    obtain ⟨he, hg⟩ := forall_mem_cons.mp hg
    have ha := ih (h.appendEvent hh he hs) hg hf
    rwa [append_assoc, singleton_append] at ha

end

def chainOf (initialValues : List (ℕ × FstEncodedValue)) (handle : ℕ × TraceTypeDeclaration)
    (group : List SpoolEvent) : Chain :=
  initialChain initialValues handle.1 ++ group.map chainEntry

variable {groups : List (List SpoolEvent)}

theorem Covers.appendGroups (h : Covers handles initial c state)
    (hl : c.length + groups.length = handles.length)
    (hg : ∀ i g, groups[i]? = some g → ∀ e ∈ g, e.handle = c.length + i + 1)
    (hf : groups.flatten.foldlM (Fst.appendEvent l handles initial) state = .ok state') :
    Covers handles initial
      (c ++ zipWith (chainOf initial) (handles.drop c.length) groups) state' := by
  induction groups generalizing c state with
  | nil =>
    cases hf
    simpa using h
  | cons g groups ih =>
    rw [flatten_cons, foldlM_append] at hf
    obtain ⟨next, hgr, hf⟩ := bind_ok.mp hf
    rw [length_cons] at hl
    cases hd : handles.drop c.length with
    | nil =>
      have := drop_eq_nil_iff.mp hd
      omega
    | cons handle ha' =>
      have hh : handles[c.length]? = some handle := by
        rw [← head?_drop, hd]
        rfl
      have hon := (h.pend hh).appendGroup hh (hg 0 g rfl) hgr
      have ha := ih hon (by simp; omega) (fun i o ho e he => by
        rw [hg (i + 1) o ho e he, length_append, length_singleton]
        omega) hf
      rw [length_append, ← drop_drop, hd, append_assoc] at ha
      exact ha

theorem writeWaves_ok (hl : groups.length = handles.length)
    (hg : ∀ i g, groups[i]? = some g → ∀ e ∈ g, e.handle = i + 1)
    (h : writeWaves l handles initial groups.flatten = .ok state) :
    Writing handles (zipWith (chainOf initial) handles groups) state := by
  obtain ⟨last, hf, hla⟩ := bind_ok.mp h
  have he : Covers handles initial [] { positions := replicate handles.length none } :=
    ⟨[], [], rfl,
      ⟨Nat.zero_le _, rfl, rfl, by simp [waveChains], by simp [waveChains, chainPositions],
      by simp [waveChains], rfl⟩, rfl⟩
  have hc := he.appendGroups (by simpa using hl)
    (fun i g hgr e hev => by simpa using hg i g hgr e hev) hf
  rw [length_nil, drop_zero] at hc
  split at hla
  · next hn =>
    obtain rfl := isEmpty_iff.mp hn
    cases hla
    obtain ⟨w, r, heq, hw, -⟩ := hc
    rwa [(append_eq_nil_iff.mp heq.symm).1] at hw
  · next hs =>
    have hp : 0 < handles.length := length_pos_iff.mpr (by simpa using hs)
    exact hc.start (by simp) (by simp; omega) hla

end Pass

end FsimRuntime.Fst

import FsimRuntime.RandcModel
import FsimRuntime.CyclicDraws
import FsimRuntime.WordWalk

/-!
# What a staged property leaves to the solver

The keyed walk visits every word of its width once, and the shuffled domain of
a cycle holds the values that the cycle has not drawn. Staging a property whose
draws so far form cycles leaves the values of the current cycle that are still
to be drawn.
-/

namespace FsimRuntime.Randomize

open Constraint CyclicDraws WordWalk List BitVec Nat
open Simir (Value)

section Walks

variable {width : ℕ} {v : ℕ} {state : RandomState}

theorem wordMask_toNat (hwi : width ≤ 64) : (wordMask width).toNat = 2 ^ width - 1 := by
  unfold wordMask
  split_ifs with hw
  · rw [Nat.le_antisymm hwi hw]
    rfl
  · have hl : 2 ^ width < 2 ^ 64 := Nat.pow_lt_pow_right (by decide) (Nat.lt_of_not_le hw)
    have hs : (1#64 <<< width).toNat = 2 ^ width := by
      rw [toNat_shiftLeft, Nat.shiftLeft_eq, toNat_ofNat, Nat.one_mul, Nat.mod_eq_of_lt hl]
    have hp := Nat.two_pow_pos width
    rw [toNat_sub, hs]
    show (2 ^ 64 - 1 + 2 ^ width) % 2 ^ 64 = 2 ^ width - 1
    rw [show 2 ^ 64 - 1 + 2 ^ width = 2 ^ width - 1 + 2 ^ 64 by omega, Nat.add_mod_right,
      Nat.mod_eq_of_lt (by omega)]

theorem and_wordMask_toNat (hw : width ≤ 64) (w : BitVec 64) :
    (w &&& wordMask width).toNat = w.toNat % 2 ^ width := by
  rw [toNat_and, wordMask_toNat hw, and_two_pow_sub_one_eq_mod]

theorem toNat_ofNat_of_lt (hw : width ≤ 64) (hv : v < 2 ^ width) :
    (BitVec.ofNat 64 v).toNat = v :=
  Nat.mod_eq_of_lt (Nat.lt_of_lt_of_le hv (Nat.pow_le_pow_right Nat.two_pos hw))

theorem odd_toNat (w : BitVec 64) : (w ||| 1).toNat % 2 = 1 := by
  have hb : (w ||| 1).toNat.testBit 0 = true := by
    rw [toNat_or, Nat.testBit_or]
    exact Bool.or_true _
  rwa [Nat.testBit_zero, decide_eq_true_eq] at hb

/-- A round with its two keys. -/
def walkStep (width : ℕ) (key factor value : BitVec 64) : BitVec 64 :=
  let value := (value + key) &&& wordMask width
  let value := (value * (factor ||| 1)) &&& wordMask width
  value ^^^ (value >>> max (width / 2) 1)

theorem walkStep_permutes (hw : width ≤ 64) (key f : BitVec 64) :
    Permutes width fun v => (walkStep width key f (BitVec.ofNat 64 v)).toNat := by
  have hd : 2 ^ width ∣ 2 ^ 64 := pow_dvd_pow 2 hw
  have hs : Permutes width fun v =>
      (v + key.toNat) % 2 ^ width * (f ||| 1).toNat % 2 ^ width ^^^
        ((v + key.toNat) % 2 ^ width * (f ||| 1).toNat % 2 ^ width) >>> max (width / 2) 1 :=
    (permutes_fold (lt_of_lt_of_le one_pos (le_max_right _ _))).comp
      ((permutes_mul (odd_toNat f)).comp (permutes_add key.toNat))
  have he (v : ℕ) : (walkStep width key f (BitVec.ofNat 64 v)).toNat =
      (v + key.toNat) % 2 ^ width * (f ||| 1).toNat % 2 ^ width ^^^
        ((v + key.toNat) % 2 ^ width * (f ||| 1).toNat % 2 ^ width) >>> max (width / 2) 1 := by
    simp only [walkStep, toNat_xor, toNat_ushiftRight, and_wordMask_toNat hw, toNat_mul,
      toNat_add, toNat_ofNat, mod_mod_of_dvd _ hd]
    rw [add_mod, mod_mod_of_dvd _ hd, ← add_mod]
  exact hs.congr fun {v} _ => he v

theorem walkRound_eq (value key : BitVec 64) : walkRound width (value, key) =
      (walkStep width (mixed (key + golden)) (mixed (mixed (key + golden))) value,
        mixed (key + golden)) := by
  rw [walkRound, walkStep]

theorem walk_permutes (hw : width ≤ 64) (r : ℕ) (key : BitVec 64) :
    Permutes width fun v => ((walkRound width)^[r] (BitVec.ofNat 64 v, key)).1.toNat := by
  induction r generalizing key with
  | zero =>
    exact permutes_id.congr fun hv => toNat_ofNat_of_lt hw hv
  | succ r ih =>
    have hc := (ih (mixed (key + golden))).comp
      (walkStep_permutes hw (mixed (key + golden)) (mixed (mixed (key + golden))))
    have he (v : ℕ) : (walkRound width)^[r + 1] (BitVec.ofNat 64 v, key) =
        (walkRound width)^[r] (BitVec.ofNat 64 (walkStep width (mixed (key + golden))
          (mixed (mixed (key + golden))) (BitVec.ofNat 64 v)).toNat, mixed (key + golden)) := by
      rw [Function.iterate_succ_apply, walkRound_eq, ofNat_toNat, setWidth_eq]
    exact hc.congr fun {v} _ => congrArg (fun state => state.1.toNat) (he v)

theorem wideRandcValue_permutes (hw : width ≤ 64) (key : BitVec 64) :
    Permutes width fun v => (wideRandcValue (BitVec.ofNat 64 v) width key).toNat := by
  have he {v : ℕ} (hv : v < 2 ^ width) :
      BitVec.ofNat 64 v &&& wordMask width = BitVec.ofNat 64 v := by
    refine eq_of_toNat_eq ?_
    rw [and_wordMask_toNat hw, toNat_ofNat_of_lt hw hv, mod_eq_of_lt hv]
  refine (walk_permutes hw 4 key).congr fun hv => ?_
  rw [wideRandcValue, he hv]

theorem ofWord_inj {w : ℕ} (hv : v < 2 ^ width) (hw : w < 2 ^ width)
    (h : ofWord width v = ofWord width w) : v = w := by
  refine eq_of_testBit_eq fun i => ?_
  by_cases hi : i < width
  · have hb := map_inj_left.mp h i (mem_range.mpr hi)
    cases hl : v.testBit i <;> cases hr : w.testBit i <;> simp [hl, hr] at hb ⊢
  · have hle : 2 ^ width ≤ 2 ^ i := Nat.pow_le_pow_right (by decide) (Nat.le_of_not_lt hi)
    rw [Nat.testBit_lt_two_pow (hv.trans_le hle), Nat.testBit_lt_two_pow (hw.trans_le hle)]

def wideDomain (width : ℕ) : List Value := (List.range (2 ^ width)).map (ofWord width)

theorem wideDomain_nodup : (wideDomain width).Nodup :=
  nodup_range.map_on fun _ hv _ hw h => ofWord_inj (mem_range.mp hv) (mem_range.mp hw) h

def walked (width : ℕ) (state : RandomState) (count : ℕ) : List Value :=
  (List.range count).map fun position => wideDrawn width { state with position }

theorem walked_succ (state : RandomState) (count : ℕ) :
    walked width state (count + 1) = walked width state count ++
    [wideDrawn width { state with position := count }] := by
  simp [walked, range_succ]

theorem wideDrawn_mem (hw : width ≤ 64) (hp : state.position < 2 ^ width) :
    wideDrawn width state ∈ wideDomain width :=
  mem_map.mpr ⟨_, mem_range.mpr ((wideRandcValue_permutes hw _).lt hp), rfl⟩

theorem wideDrawn_not_mem_walked (hwi : width ≤ 64) (hp : state.position < 2 ^ width) :
    wideDrawn width state ∉ walked width state state.position := by
  intro hm
  obtain ⟨p, hl, he⟩ := mem_map.mp hm
  have hl := mem_range.mp hl
  have hw := wideRandcValue_permutes hwi
    (mixed (state.streamSeed ^^^ wideSignature width ^^^ mixed (BitVec.ofNat 64 state.cycle)))
  have hwo := ofWord_inj (hw.lt (hl.trans hp)) (hw.lt hp) he
  have := hw.inj (hl.trans hp) hp hwo
  omega

end Walks

section Shuffles

variable {base : List Value} {state : RandomState} {o : List ℕ} {d : List Value}

theorem swapAt_perm {i j : ℕ} (hi : i < o.length) (hj : j < o.length) :
    (swapAt o i j).Perm o := by
  rw [swapAt, getD_eq_getElem _ _ hi, getD_eq_getElem _ _ hj]
  exact set_set_perm hi hj

theorem shuffle_perm {count : ℕ} {s : BitVec 64} (hc : count ≤ o.length) :
    (shuffle count s o).Perm o := by
  fun_induction shuffle count s o with
  | case1 | case2 => exact .refl _
  | case3 l s o ih =>
    have hse : s.toNat % (l + 2) < l + 2 := mod_lt _ (succ_pos _)
    have hs := @swapAt_perm o (l + 1) (s.toNat % (l + 2)) (by omega) (by omega)
    exact (ih (by rw [hs.length_eq]; omega)).trans hs

theorem mem_unused {index : ℕ} : index ∈ unused base state ↔ index < base.length ∧
    index ∉ state.usedValues := by
  simp [unused]

section
variable (h : randcDomain base state = .ok d)
include h

theorem randcDomain_perm : d.Perm ((unused base state).map fun index => base.getD index []) := by
  unfold randcDomain at h
  split_ifs at h
  cases h
  exact (shuffle_perm le.refl).map _

theorem mem_randcDomain {value : Value} (hv : value ∈ d) :
    ∃ index, index < base.length ∧ index ∉ state.usedValues ∧
      base.getD index [] = value := by
  obtain ⟨index, hin, he⟩ := mem_map.mp ((randcDomain_perm h).mem_iff.mp hv)
  exact ⟨index, (mem_unused.mp hin).1, (mem_unused.mp hin).2, he⟩

theorem randcDomain_unused (hu : state.usedValues = []) : d.Perm base := by
  have ha : (unused base state).map (fun index => base.getD index []) = base := by
    rw [unused, hu]
    simp only [not_mem_nil, not_false_eq_true, decide_true, filter_true]
    refine ext_getElem (by simp) fun i _ hi => ?_
    rw [getElem_map, getElem_range, getD_eq_getElem _ _ hi]
  have hp := randcDomain_perm h
  rwa [ha] at hp

end

end Shuffles

section Tracking

variable {base draws d : List Value} {state state' : RandomState} {value : Value} {width : ℕ}

structure TracksExact (base : List Value) (state : RandomState) (draws : List Value) : Prop where
  nodup : draws ≠ [] → base.Nodup
  signature : state.domainSignature = domainSignature base ∨ state.usedValues = []
  places : ∀ index ∈ state.usedValues, index < base.length
  drawn : Drawn base draws (state.usedValues.map fun index => base.getD index [])

theorem TracksExact.congr (h : TracksExact base state draws)
    (hs : state'.domainSignature = state.domainSignature)
    (hu : state'.usedValues = state.usedValues) :
    TracksExact base state' draws := by
  refine ⟨h.nodup, ?_, ?_, ?_⟩
  · rw [hs, hu]
    exact h.signature
  · rw [hu]
    exact h.places
  · rw [hu]
    exact h.drawn

theorem nextCycle_ok (h : nextCycle state = .ok state') :
    state' = { state with cycle := state.cycle + 1 } := by
  unfold nextCycle at h
  split_ifs at h
  cases h
  rfl

theorem stageExact_tracks (h : stageExact base state = .ok state')
    (ht : TracksExact base state draws) :
    TracksExact base state' draws ∧ state'.domainSignature = domainSignature base := by
  -- a changed signature finds a cycle that has drawn nothing
  obtain ⟨current, hc, ht, hs⟩ : ∃ current,
      current = (if state.domainSignature ≠ domainSignature base then
        { state with domainSignature := domainSignature base, cycle := 0, usedValues := [] }
          else state) ∧
      TracksExact base current draws ∧ current.domainSignature = domainSignature base := by
    refine ⟨_, rfl, ?_⟩
    split_ifs with hne
    · have hu := ht.signature.resolve_left hne
      have hd := ht.drawn
      rw [hu] at hd
      exact ⟨⟨ht.nodup, .inr rfl, by simp, hd⟩, rfl⟩
    · exact ⟨ht, not_not.mp hne⟩
  unfold stageExact at h
  dsimp only at h
  rw [← hc] at h
  split_ifs at h with hf
  · obtain ⟨next, hn, h⟩ := bind_ok.mp h
    cases h
    rw [nextCycle_ok hn]
    refine ⟨⟨ht.nodup, .inr rfl, by simp, ht.drawn.turn ?_⟩, hs⟩
    refine (ht.drawn.nodup.subperm ht.drawn.subset).perm_of_length_le ?_
    rw [length_map, hf]
  · cases h
    exact ⟨ht, hs⟩

variable {current : List Value}

theorem Drawn.draws_ne_nil (h : Drawn base draws current) (hc : current ≠ []) : draws ≠ [] := by
  cases h with
  | start | turn => exact absurd rfl hc
  | draw => simp

theorem TracksExact.draw (ht : TracksExact base state draws)
    (hs : state.domainSignature = domainSignature base) (hd : randcDomain base state = .ok d)
    (hn : d.Nodup) (hv : value ∈ d) :
    TracksExact base { state with usedValues := state.usedValues ++ [base.idxOf value] }
    (draws ++ [value]) := by
  have hb : base.Nodup := by
    by_cases hu : state.usedValues = []
    · exact (randcDomain_unused hd hu).nodup_iff.mp hn
    · exact ht.nodup (Drawn.draws_ne_nil ht.drawn (by simpa using hu))
  obtain ⟨index, hin, hun, rfl⟩ := mem_randcDomain hd hv
  have hid : base.idxOf (base.getD index []) = index := by
    rw [getD_eq_getElem _ _ hin]
    exact hb.idxOf_getElem index hin
  rw [hid]
  refine ⟨fun _ => hb, .inl hs, fun o ho => ?_, ?_⟩
  · rcases mem_append.mp ho with ho | ho
    · exact ht.places o ho
    · rw [mem_singleton.mp ho]
      exact hin
  · rw [map_append]
    refine ht.drawn.draw ?_ fun hm => ?_
    · rw [getD_eq_getElem _ _ hin]
      exact getElem_mem hin
    · obtain ⟨o, ho, he⟩ := mem_map.mp hm
      have hl := ht.places o ho
      rw [getD_eq_getElem _ _ hl, getD_eq_getElem _ _ hin] at he
      exact hun (hb.getElem_inj_iff.mp he ▸ ho)

structure TracksWide (width : ℕ) (state : RandomState) (draws : List Value) : Prop where
  signature : state.domainSignature = wideSignature width ∨ state.position = 0
  position_le : state.position ≤ 2 ^ width
  position_lt : state.position < 2 ^ 64
  drawn : Drawn (wideDomain width) draws (walked width state state.position)

theorem Drawn.complete {draws : List Value} (h : Drawn (wideDomain width) draws current)
    (hl : current.length = 2 ^ width) : Drawn (wideDomain width) draws [] := by
  refine h.turn ((h.nodup.subperm h.subset).perm_of_length_le ?_)
  rw [wideDomain, length_map, length_range, hl]

theorem length_walked (count : ℕ) : (walked width state count).length = count := by simp [walked]

theorem stageWide_tracks (hw : width ≤ 64) (h : stageWide width state = .ok state')
    (ht : TracksWide width state draws) :
    TracksWide width state' draws ∧ state'.domainSignature = wideSignature width ∧
    state'.position < 2 ^ width := by
  obtain ⟨current, hc, ht, hs⟩ : ∃ current,
      current = (if state.domainSignature ≠ wideSignature width then
        { state with
          domainSignature := wideSignature width, cycle := 0, usedValues := [], position := 0 }
        else state) ∧
      TracksWide width current draws ∧ current.domainSignature = wideSignature width := by
    refine ⟨_, rfl, ?_⟩
    split_ifs with hne
    · have hp := ht.signature.resolve_left hne
      have hd := ht.drawn
      simp only [hp, walked, range_zero, map_nil] at hd
      refine ⟨⟨.inr rfl, Nat.zero_le _, Nat.two_pow_pos 64, ?_⟩, rfl⟩
      exact hd
    · exact ⟨ht, not_not.mp hne⟩
  unfold stageWide at h
  dsimp only at h
  rw [← hc] at h
  split_ifs at h with hf
  · obtain ⟨next, hn, h⟩ := bind_ok.mp h
    cases h
    rw [nextCycle_ok hn]
    refine ⟨⟨.inr rfl, Nat.zero_le _, Nat.two_pow_pos 64, ?_⟩, hs, Nat.two_pow_pos width⟩
    exact Drawn.complete ht.drawn ((length_walked _).trans (Nat.le_antisymm ht.position_le hf.2))
  · cases h
    refine ⟨ht, hs, ?_⟩
    rcases Nat.lt_or_eq_of_le hw with hl | he
    · exact Nat.lt_of_not_le fun hle => hf ⟨hl, hle⟩
    · rw [he]
      exact ht.position_lt

theorem TracksWide.draw (hw : width ≤ 64) (ht : TracksWide width state draws)
    (hs : state.domainSignature = wideSignature width) (hp : state.position < 2 ^ width) :
    TracksWide width { state with position := (state.position + 1) % 2 ^ 64 }
    (draws ++ [wideDrawn width state]) := by
  have hd : Drawn (wideDomain width) (draws ++ [wideDrawn width state])
      (walked width state (state.position + 1)) := by
    rw [walked_succ]
    exact ht.drawn.draw (wideDrawn_mem hw hp) (wideDrawn_not_mem_walked hw hp)
  have hpo : 2 ^ width ≤ 2 ^ 64 := Nat.pow_le_pow_right Nat.two_pos hw
  by_cases hwr : state.position + 1 < 2 ^ 64
  · rw [Nat.mod_eq_of_lt hwr]
    exact ⟨.inl hs, hp, hwr, hd⟩
  · -- a walk over all words ends where the position wraps
    have he : state.position + 1 = 2 ^ 64 := by omega
    rw [he]
    refine ⟨.inl hs, Nat.zero_le _, Nat.two_pow_pos 64, ?_⟩
    refine Drawn.complete hd ?_
    rw [length_walked]
    omega

end Tracking

end FsimRuntime.Randomize

import FsimRuntime.InlineEmission
import FsimRuntime.Refusal

/-!
# Expanded programs run like the original ones

A configuration of the original program stands in a context of the expanded
one whose return labels are its return-address stack. Calls and frames are
stuttering steps, returns and broken fall-throughs are jumps.
-/

namespace FsimRuntime.InlineCalls
open StutterTraces List Option

variable {ω κ σ φ : Type} {operations : List (Operation ω κ)}

section Fuel

variable {positions r active : List ℕ} {callee c' : Emitter ω κ}

theorem length_le_of_bounded {n : ℕ} (hn : positions.Nodup) (hb : ∀ pc ∈ positions, pc < n) :
    positions.length ≤ n := by
  have hs : positions ⊆ range n := fun pc hp => mem_range.mpr (hb pc hp)
  simpa using (hn.subperm hs).length_le

theorem nodup_concat {pc : ℕ} (hn : positions.Nodup) (hp : pc ∉ positions) :
    (positions ++ [pc]).Nodup := by
  rw [nodup_append]
  refine ⟨hn, by simp, fun a ha b hb => ?_⟩
  rintro rfl
  exact hp (mem_singleton.mp hb ▸ ha)

theorem walk_fuel (f : ℕ) {work : List ℕ} (hn : r.Nodup)
    (hb : ∀ pc ∈ r, pc < operations.length)
    (hf : work.length + 2 * (operations.length - r.length) ≤ f) :
    walk operations (f + 1) work r = walk operations f work r := by
  induction f generalizing work r with
  | zero =>
    obtain rfl : work = [] := length_eq_zero_iff.mp (by omega)
    rfl
  | succ f ih =>
    cases work with
    | nil => rfl
    | cons pc work =>
      rw [walk, walk]
      cases ho : operations[pc]? with
      | none => rfl
      | some o =>
        split_ifs with hs
        · exact ih hn hb (by simp only [length_cons] at hf; omega)
        · have hpc : pc < operations.length := (List.getElem?_eq_some_iff.mp ho).1
          have hb' : ∀ q ∈ r ++ [pc], q < operations.length := by
            intro q hq
            rcases mem_append.mp hq with hq | hq
            · exact hb q hq
            · exact mem_singleton.mp hq ▸ hpc
          have hl := length_le_of_bounded (nodup_concat hn hs) hb'
          have hp : (successors pc o).length ≤ 2 := by cases o <;> simp [successors]
          refine ih (nodup_concat hn hs) hb' ?_
          simp only [length_append, length_cons] at hl hf ⊢
          omega

theorem calleeRegion_fuel (entry extra : ℕ) :
    walk operations (2 * operations.length + 2 + extra) [entry] [] =
      walk operations (2 * operations.length + 2) [entry] [] := by
  induction extra with
  | zero => rfl
  | succ extra ih =>
    rw [← ih, ← Nat.add_assoc, walk_fuel _ nodup_nil (by simp)]
    simp only [length_cons, length_nil]
    omega

theorem lt_of_calleeRegion {entry : ℕ}
    (h : calleeRegion operations entry = some r) : entry < operations.length := by
  obtain ⟨v, hw, _⟩ := map_eq_some_iff.mp h
  by_contra he
  rw [walk, getElem?_eq_none (Nat.not_lt.mp he)] at hw
  simp at hw

section
variable (h : ∀ target, target ∉ active → target < operations.length →
  callee (active ++ [target]) = c' (active ++ [target]))
include h

theorem emitOperation_congr
    (c : ℕ) (e : Emission ω κ) (o : Operation ω κ) :
    emitOperation operations callee active c e o = emitOperation operations c' active c e o := by
  cases o with
  | call target resume =>
    simp only [emitOperation]
    split_ifs with ha
    · rfl
    · cases hr : calleeRegion operations target with
      | none => rfl
      | some r => rw [h target ha (lt_of_calleeRegion hr)]
  | _ => rfl

theorem emitRegion_congr :
    emitRegion operations callee active = emitRegion operations c' active := by
  funext c region
  induction region with
  | nil => rfl
  | cons pc r ih =>
    simp [emitRegion, ih, emitOperation_congr h]

end

theorem emit_depth (d : ℕ) (hn : active.Nodup)
    (hb : ∀ target ∈ active, target < operations.length)
    (hd : operations.length ≤ active.length + d) :
    emit operations (d + 1) active = emit operations d active := by
  induction d generalizing active with
  | zero =>
    refine emitRegion_congr fun target ha ht => ?_
    have hl := length_le_of_bounded (nodup_concat hn ha) (n := operations.length)
      fun pc hp => (mem_append.mp hp).elim (hb pc) fun hp => mem_singleton.mp hp ▸ ht
    simp only [length_append, length_cons] at hl
    omega
  | succ d ih =>
    refine emitRegion_congr fun target ha ht => ih (nodup_concat hn ha) ?_ ?_
    · exact fun pc hp =>
        (mem_append.mp hp).elim (hb pc) fun hp => mem_singleton.mp hp ▸ ht
    · simp only [length_append, length_cons]
      omega

end Fuel

section Steps

variable {semantics : Semantics ω κ σ φ} {program : List (Operation ω κ)} {pc target : ℕ}
  {stack : List ℕ} {frames : List φ} {state : σ}

theorem step_plain {operation : ω} (h : program[pc]? = some (.plain operation)) :
    step semantics program ⟨some pc, stack, frames, state⟩ =
      some (⟨some (pc + 1), stack, frames, semantics.exec operation state⟩,
        some (.plain operation state)) := by simp [step, h]

theorem step_push {frame : ω} {isolated : Bool}
    (h : program[pc]? = some (.callableFramePush frame isolated)) :
    step semantics program ⟨some pc, stack, frames, state⟩ =
      some (⟨some (pc + 1), stack, semantics.save frame state :: frames, state⟩, none) := by
  simp [step, h]

theorem step_pop {frame : ω} {saved : φ} (h : program[pc]? = some (.callableFramePop frame)) :
    step semantics program ⟨some pc, stack, saved :: frames, state⟩ =
      some (⟨some (pc + 1), stack, frames, semantics.restore frame saved state⟩, none) := by
  simp [step, h]

theorem step_call {returnTarget : ℕ} (h : program[pc]? = some (.call target returnTarget)) :
    step semantics program ⟨some pc, stack, frames, state⟩ =
      some (⟨some target, returnTarget :: stack, frames, state⟩, none) := by simp [step, h]

theorem step_ret (h : program[pc]? = some .ret) :
    step semantics program ⟨some pc, target :: stack, frames, state⟩ =
      some (⟨some target, stack, frames, state⟩, none) := by simp [step, h]

theorem step_jump (h : program[pc]? = some (.jump target)) :
    step semantics program ⟨some pc, stack, frames, state⟩ =
      some (⟨some target, stack, frames, state⟩, none) := by simp [step, h]

theorem step_branch {condition : κ} {whenTrue whenFalse : ℕ}
    (h : program[pc]? = some (.branch condition whenTrue whenFalse)) :
    step semantics program ⟨some pc, stack, frames, state⟩ =
      some
      (⟨(semantics.condition condition state).map (if · then whenTrue else whenFalse), stack,
        frames, state⟩, some (.branch condition state)) := by simp [step, h]

theorem step_halt (h : program[pc]? = some .halt) :
    step semantics program ⟨some pc, stack, frames, state⟩ =
      some (⟨none, stack, frames, state⟩, some (.halt state)) := by simp [step, h]

theorem Isolated.step_frame {invariant : Config σ φ → Prop} {operation : Operation ω κ}
    (hisolated : Isolated semantics program invariant)
    (hinvariant : invariant ⟨some pc, stack, frames, state⟩) (h : program[pc]? = some operation)
    (hframe : (∃ frame, operation = .callableFramePop frame) ∨
      ∃ frame, operation = .callableFramePush frame true) :
    ∃ frames', step semantics program ⟨some pc, stack, frames, state⟩ =
      some (⟨some (pc + 1), stack, frames', state⟩, none) := by
  rcases hframe with ⟨frame, rfl⟩ | ⟨frame, rfl⟩
  · obtain ⟨saved, rest, rfl, hrestore⟩ :=
      hisolated.restored pc stack frames state frame hinvariant h
    exact ⟨rest, by rw [step_pop h, hrestore]⟩
  · exact ⟨_, step_push h⟩

end Steps

section Simulation

structure Inlined (operations : List (Operation ω κ)) (e : Emission ω κ)
    (out : List (Operation ω κ)) : Prop where
  realised : ∀ c pc p, e.position (c, pc) = some p → Realises operations e c pc p
  program : e.contexts[0]? = some none
  resolved : ∀ (p : ℕ) operation, e.out[p]? = some operation →
    ∃ operation', e.resolveOperation operation = some operation' ∧ out[p]? = some operation'

def StackOf (e : Emission ω κ) : ℕ → List ℕ → Prop
  | c, [] => c = 0
  | c, target :: stack => ∃ n c', e.contexts[c]? = some (some n) ∧
      e.labels[n]? = some (c', target) ∧ StackOf e c' stack

/-- Stuttering steps go to a later context, or to a later position of the same one. -/
def rank (operations : List (Operation ω κ)) (e : Emission ω κ) (c pc : ℕ) : ℕ :=
  (e.contexts.length - c) * (operations.length + 1) + (operations.length - pc)

/-- The expanded program keeps neither return addresses nor frames. -/
def Related (operations : List (Operation ω κ)) (e : Emission ω κ)
    (invariant : Config σ φ → Prop) (r : ℕ) (a b : Config σ φ) : Prop :=
  invariant a ∧ b.stack = [] ∧ b.frames = [] ∧ b.state = a.state ∧
    ((a.pc = none ∧ b.pc = none) ∨ ∃ c pc p, a.pc = some pc ∧ b.pc = some p ∧
      e.position (c, pc) = some p ∧ StackOf e c a.stack ∧ r = rank operations e c pc)

variable {e : Emission ω κ} {out : List (Operation ω κ)} {s : Semantics ω κ σ φ}
  {invariant : Config σ φ → Prop} {c pc p q n target : ℕ} {stack : List ℕ}
    {frames : List φ}
  {state : σ}

theorem Inlined.jump (h : Inlined operations e out) (ho : e.out[q]? = some (.jump n))
    (hl : e.labels[n]? = some (c, target)) :
    ∃ p, e.position (c, target) = some p ∧ out[q]? = some (.jump p) := by
  obtain ⟨o, hr, hq⟩ := h.resolved q _ ho
  obtain ⟨p, hp, rfl⟩ := map_eq_some_iff.mp hr
  refine ⟨p, ?_, hq⟩
  simpa [Emission.resolve, hl] using hp

theorem Inlined.next (h : Inlined operations e out) (hn : Next e c pc q)
    (s : Semantics ω κ σ φ) (state : σ) : ∃ k p, e.position (c, pc) = some p ∧
      Silent (step s out) k ⟨some q, [], [], state⟩ ⟨some p, [], [], state⟩ := by
  rcases hn with hpl | ⟨n, ho, hl⟩
  · exact ⟨0, q, hpl, rfl⟩
  · obtain ⟨p, hp, hq⟩ := h.jump ho hl
    exact ⟨1, p, hp, _, step_jump hq, rfl⟩

theorem rank_succ (hp : pc < operations.length) :
    rank operations e c (pc + 1) < rank operations e c pc := by
  unfold rank
  omega

theorem rank_callee {c' : ℕ} (hc : c < c') (hco : c' < e.contexts.length)
    (hp : pc < operations.length) : rank operations e c' target < rank operations e c pc := by
  unfold rank
  have hl : (e.contexts.length - c') + 1 ≤ e.contexts.length - c := by omega
  have hm := Nat.mul_le_mul_right (operations.length + 1) hl
  rw [Nat.add_mul] at hm
  omega

theorem Inlined.stack_cons (h : Inlined operations e out) (hs : StackOf e c stack)
    (hc : e.contexts[c]? = some (some n)) :
    ∃ target r c', stack = target :: r ∧ e.labels[n]? = some (c', target) ∧
    StackOf e c' r := by
  cases stack with
  | nil =>
    obtain rfl : c = 0 := hs
    rw [h.program] at hc
    cases hc
  | cons target r =>
    obtain ⟨m, c', hm, hl, hr⟩ := hs
    rw [hc] at hm
    cases hm
    exact ⟨target, r, c', rfl, hl, hr⟩

theorem related_of_position (hinvariant : invariant ⟨some pc, stack, frames, state⟩)
    (hp : e.position (c, pc) = some p) (hs : StackOf e c stack) :
    Related operations e invariant (rank operations e c pc) ⟨some pc, stack, frames, state⟩
      ⟨some p, [], [], state⟩ :=
  ⟨hinvariant, rfl, rfl, rfl, .inr ⟨c, pc, p, rfl, rfl, hp, hs, rfl⟩⟩

theorem related_stopped (hinvariant : invariant ⟨none, stack, frames, state⟩) :
    Related operations e invariant 0 ⟨none, stack, frames, state⟩ ⟨none, [], [], state⟩ :=
  ⟨hinvariant, rfl, rfl, rfl, .inl ⟨rfl, rfl⟩⟩

theorem Inlined.simulation (h : Inlined operations e out)
    (hisolated : Isolated s operations invariant) :
    Simulation (step s operations) (step s out) (Related operations e invariant) where
  stuck := by
    rintro r ⟨apc, stack, frames, state⟩ ⟨bpc, bstack, bframes, bstate⟩
      ⟨hinvariant, _, _, _, ⟨_, hb⟩ | ⟨c, pc, p, ha, _, hp, hst, _⟩⟩ hs
    · obtain rfl : bpc = none := hb
      rfl
    · obtain rfl : apc = some pc := ha
      cases h.realised c pc p hp with
      | frame ho hf =>
        obtain ⟨_, hstep⟩ := hisolated.step_frame hinvariant ho hf
        rw [hstep] at hs
        cases hs
      | ret ho hco =>
        obtain ⟨target, rest, c', hcon, _⟩ := h.stack_cons hst hco
        obtain rfl : stack = target :: rest := hcon
        simp [step_ret ho] at hs
      | plain ho | call ho | jump ho | branch ho | halt ho => simp [step, ho] at hs
  move := by
    rintro r ⟨apc, stack, frames, state⟩ ⟨bpc, bstack, bframes, bstate⟩ a' event
      ⟨hinvariant, hbstack, hbframes, hbstate, hpcs⟩ hs
    obtain rfl : bstack = [] := hbstack
    obtain rfl : bframes = [] := hbframes
    obtain rfl : bstate = state := hbstate
    have hkept := hisolated.kept _ _ _ hinvariant hs
    rcases hpcs with ⟨ha, _⟩ | ⟨c, pc, p, ha, hb, hp, hst, rfl⟩
    · obtain rfl : apc = none := ha
      simp [step] at hs
    obtain rfl : apc = some pc := ha
    obtain rfl : bpc = some p := hb
    cases h.realised c pc p hp with
    | plain ho hou hn =>
      rw [step_plain ho] at hs
      cases hs
      obtain ⟨o, hr, hc⟩ := h.resolved p _ hou
      cases hr
      obtain ⟨k, q, hq, hsi⟩ := h.next hn s _
      exact .inr ⟨_, k, _, _, step_plain hc, hsi, related_of_position hkept hq hst⟩
    | frame ho hf hn =>
      obtain ⟨frames', hstep⟩ := hisolated.step_frame hinvariant ho hf
      rw [hstep] at hs
      cases hs
      rcases hn with hpl | ⟨n, hou, hl⟩
      · have hpc : pc < operations.length := (List.getElem?_eq_some_iff.mp ho).1
        exact .inl ⟨rfl, _, rank_succ hpc, related_of_position hkept hpl hst⟩
      · obtain ⟨q, hq, hc⟩ := h.jump hou hl
        exact .inr ⟨_, 0, _, _, step_jump hc, rfl, related_of_position hkept hq hst⟩
    | call ho hca hco hl he =>
      rw [step_call ho] at hs
      cases hs
      have hpc : pc < operations.length := (List.getElem?_eq_some_iff.mp ho).1
      have hle := (List.getElem?_eq_some_iff.mp hco).1
      exact .inl ⟨rfl, _, rank_callee hca hle hpc,
        related_of_position hkept he ⟨_, c, hco, hl, hst⟩⟩
    | ret ho hco hou =>
      obtain ⟨target, rest, c', hcon, hl, hre⟩ := h.stack_cons hst hco
      obtain rfl : stack = target :: rest := hcon
      rw [step_ret ho] at hs
      cases hs
      obtain ⟨q, hq, hc⟩ := h.jump hou hl
      exact .inr ⟨_, 0, _, _, step_jump hc, rfl, related_of_position hkept hq hre⟩
    | jump ho hou hl =>
      rw [step_jump ho] at hs
      cases hs
      obtain ⟨q, hq, hc⟩ := h.jump hou hl
      exact .inr ⟨_, 0, _, _, step_jump hc, rfl, related_of_position hkept hq hst⟩
    | @branch condition whenTrue whenFalse m n ho hou ht hfa =>
      rw [step_branch ho] at hs
      cases hs
      obtain ⟨o, hr, hc⟩ := h.resolved p _ hou
      obtain ⟨q, hq, hr⟩ := bind_eq_some_iff.mp hr
      obtain ⟨q', hq', hr⟩ := bind_eq_some_iff.mp hr
      cases hr
      have hq : e.position (c, whenTrue) = some q := by simpa [Emission.resolve, ht] using hq
      have hq' : e.position (c, whenFalse) = some q' := by simpa [Emission.resolve, hfa] using hq'
      have hs := @step_branch _ _ _ _ s out p [] [] bstate condition q q' hc
      rcases hcn : s.condition condition bstate with _ | _ | _ <;> rw [hcn] at hs hkept
      · exact .inr ⟨_, 0, _, 0, hs, rfl, related_stopped hkept⟩
      · exact .inr ⟨_, 0, _, _, hs, rfl, related_of_position hkept hq' hst⟩
      · exact .inr ⟨_, 0, _, _, hs, rfl, related_of_position hkept hq hst⟩
    | halt ho hou =>
      rw [step_halt ho] at hs
      cases hs
      obtain ⟨o, hr, hc⟩ := h.resolved p _ hou
      cases hr
      exact .inr ⟨_, 0, _, 0, step_halt hc, rfl, related_stopped hkept⟩

end Simulation

section Programs

variable {wait jump : ℕ} {result : InlinedProgram ω κ} {e : Emission ω κ}
  {out : List (Operation ω κ)}

theorem resolved_of_mapM (h : e.out.mapM e.resolveOperation = some out) (p : ℕ)
    (o : Operation ω κ)
    (hp : e.out[p]? = some o) : ∃ o', e.resolveOperation o = some o' ∧ out[p]? = some o' := by
  rcases mapM_option_cases e.resolveOperation e.out with ⟨_, hn⟩ | ⟨out', ho, hl, ha⟩
  · rw [h] at hn
    cases hn
  · rw [h] at ho
    cases ho
    obtain ⟨hlt, rfl⟩ := List.getElem?_eq_some_iff.mp hp
    have hl' : p < out.length := hl ▸ hlt
    exact ⟨out[p], ha p hlt hl', getElem?_eq_getElem hl'⟩

theorem emit_inlined (hen : Expandable operations jump)
    (hem : emit operations operations.length [] 0 (range (jump + 1)) .initial = some e)
    (ho : e.out.mapM e.resolveOperation = some out) :
    Inlined operations e out ∧ e.position (0, 0) = some 0 := by
  have hre : Ready operations jump 0 (range (jump + 1)) (.initial : Emission ω κ) := by
    refine ⟨fun _ _ => rfl, nodup_range, Nat.zero_lt_one, fun key hk => absurd rfl hk, ?_⟩
    exact fun pc hpc => .program (Nat.lt_succ_iff.mp (mem_range.mp hpc))
  have he := emit_correct hen operations.length _ _ _ _ _ hre hem
  refine ⟨⟨fun c pc p hp => ?_, getElem_of_isPrefix he.grown.contexts rfl,
    resolved_of_mapM ho⟩, he.first 0 (by simp [range_succ_eq_map])⟩
  rcases he.realised (c, pc) p hp with hin | hr
  · cases hin
  · exact hr

section
variable (h : staticKernelInlineCalls operations wait jump = some result)
include h

theorem inlineCalls_some :
    ∃ e waiting last,
      emit operations operations.length [] 0 (range (jump + 1)) .initial = some e ∧
      e.out.mapM e.resolveOperation = some result.operations ∧
      e.position (0, wait) = some waiting ∧
      e.position (0, jump) = some last ∧ last + 1 = result.operations.length ∧
      ((wait = 0 ∧ result.bodyBegin = 1 ∧ result.bodyEnd = last ∧ result.exitAlt = 0) ∨
        (wait ≠ 0 ∧ last = waiting + 1 ∧ result.bodyBegin = 0 ∧ result.bodyEnd = waiting ∧
          result.exitAlt = last)) := by
  unfold staticKernelInlineCalls at h
  split at h
  · cases h
  obtain ⟨e, he, h⟩ := bind_eq_some_iff.mp h
  split at h
  · cases h
  obtain ⟨out, ho, h⟩ := bind_eq_some_iff.mp h
  obtain ⟨waiting, hw, h⟩ := bind_eq_some_iff.mp h
  obtain ⟨last, hj, h⟩ := bind_eq_some_iff.mp h
  split_ifs at h with hl hz hb
  · cases h
    exact ⟨e, waiting, last, he, ho, hw, hj, not_not.mp hl, .inl ⟨hz, rfl, rfl, rfl⟩⟩
  · cases h
    have hb := not_not.mp hb
    exact ⟨e, waiting, last, he, ho, hw, hj, not_not.mp hl,
      .inr ⟨hz, hb, rfl, rfl, hb.symm⟩⟩

end

def entryFirst : List (Operation Char Unit) :=
  [.callableFramePush 'f' true, .call 5 2, .callableFramePop 'f', .plain 'w', .jump 0,
    .plain 'a', .branch () 7 5, .plain 'b', .ret]

/-- The caller owns the first register, which its frame saves and restores; the operations count in
the second one. -/
def counting : Semantics Char Unit (ℕ × ℕ) ℕ where
  exec _ state := (state.1, state.2 + 1)
  condition _ state := some (state.2 % 2 == 0)
  redirect _ _ pc _ := pc + 1
  save _ state := state.1
  restore _ saved state := (saved, state.2)

theorem entryFirst_expandable : Expandable entryFirst 4 where
  entries pc target returnTarget region _ hop hregion := by
    have htarget : target = 5 := by
      have hpc : pc < 9 := (List.getElem?_eq_some_iff.mp hop).1
      interval_cases pc <;> simp_all [entryFirst]
    subst htarget
    have hcallee : calleeRegion entryFirst 5 = some [5, 6, 7, 8] := by decide
    cases hregion
    rfl
  positionless pc operation positions _ hop := by
    have hpc : pc < 9 := (List.getElem?_eq_some_iff.mp hop).1
    interval_cases pc <;> simp [entryFirst] at hop

def entryFirstShape (config : Config (ℕ × ℕ) ℕ) : Prop :=
  config.state.1 = 7 ∧ (config.pc, config.stack, config.frames) ∈
    ([(some 0, [], []), (some 1, [], [7]), (some 2, [], [7]), (some 3, [], []), (some 4, [], []),
      (some 5, [2], [7]), (some 6, [2], [7]), (some 7, [2], [7]), (some 8, [2], [7])] :
      List (Option ℕ × List ℕ × List ℕ))

theorem entryFirst_isolated : Isolated counting entryFirst entryFirstShape where
  kept := by
    rintro ⟨pc, stack, frames, first, count⟩ next event ⟨hfirst, hshape⟩ hstep
    obtain rfl : first = 7 := hfirst
    simp only [mem_cons, Prod.mk.injEq, not_mem_nil, or_false] at hshape
    rcases hshape with ⟨rfl, rfl, rfl⟩ | ⟨rfl, rfl, rfl⟩ | ⟨rfl, rfl, rfl⟩
      | ⟨rfl, rfl, rfl⟩ |
      ⟨rfl, rfl, rfl⟩ | ⟨rfl, rfl, rfl⟩ | ⟨rfl, rfl, rfl⟩ | ⟨rfl, rfl, rfl⟩
        | ⟨rfl, rfl, rfl⟩ <;>
      cases hstep <;> simp [entryFirstShape, counting]
    split <;> simp <;> omega
  restored pc stack frames state frame hshape hop := by
    obtain rfl : pc = 2 := by
      have hpc : pc < 9 := (List.getElem?_eq_some_iff.mp hop).1
      interval_cases pc <;> simp_all [entryFirst]
    obtain ⟨hfirst, hshape⟩ := hshape
    have hframes : frames = [7] := by simp at hshape; exact hshape.2
    exact ⟨7, [], hframes, Prod.ext hfirst.symm rfl⟩

def entryLater : List (Operation Char Unit) :=
  [.call 5 1, .plain 'w', .jump 0, .plain 'b', .ret, .plain 'a', .jump 3]

def blockDisabled : List (Operation Char Unit) :=
  [.call 3 1, .plain 'w', .jump 0, .plain 'a', .positioned 'd' [3, 6], .plain 'b', .ret]

def blocks : Semantics Char Unit Unit Unit where
  exec _ _ := ()
  condition _ _ := none
  redirect _ positions pc _ := disableBlockTarget positions pc
  save _ _ := ()
  restore _ _ _ := ()

end Programs

end FsimRuntime.InlineCalls

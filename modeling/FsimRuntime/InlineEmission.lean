import FsimRuntime.InlineModel

/-!
# What the emission leaves

Every placed position of a context is realised by the code at its place: the
emitted operation with labels for its targets, and the place or a jump for the
position behind it. A call is realised by the place of its entry in the context
of the callee, provided that the callee's code begins with its entry.
-/

namespace FsimRuntime.InlineCalls
open List

variable {ω κ : Type} {o : List (Operation ω κ)}

section Growth

structure Extends (e e' : Emission ω κ) : Prop where
  out : e.out <+: e'.out
  labels : e.labels <+: e'.labels
  contexts : e.contexts <+: e'.contexts
  position : ∀ key p, e.position key = some p → e'.position key = some p

variable {e e' e'' : Emission ω κ} {c pc p n : ℕ}

theorem Extends.refl (e : Emission ω κ) : Extends e e :=
  ⟨prefix_refl _, prefix_refl _, prefix_refl _, fun _ _ => id⟩

theorem Extends.trans (h : Extends e e') (h' : Extends e' e'') : Extends e e'' :=
  ⟨h.out.trans h'.out, h.labels.trans h'.labels, h.contexts.trans h'.contexts,
    fun key p hp => h'.position key p (h.position key p hp)⟩

theorem getElem_of_isPrefix {α : Type} {l l' : List α} (h : l <+: l') {i : ℕ} {a : α}
    (ha : l[i]? = some a) : l'[i]? = some a := by
  obtain ⟨r, rfl⟩ := h
  rwa [List.getElem?_append_left (List.getElem?_eq_some_iff.mp ha).1]

theorem Extends.push (e : Emission ω κ) (op : Operation ω κ) :
    Extends e (e.push op) ∧ (e.push op).out[e.out.length]? = some op :=
  ⟨⟨prefix_append _ _, prefix_refl _, prefix_refl _, fun _ _ => id⟩,
    by simp [Emission.push]⟩

theorem label_spec (e : Emission ω κ) (c pc : ℕ) :
    ∃ labels n, e.label c pc = ({ e with labels }, n) ∧ e.labels <+: labels ∧
      labels[n]? = some (c, pc) := by
  unfold Emission.label
  cases hf : e.labels.idxOf? (c, pc) with
  | some n =>
    rw [idxOf?, findIdx?_eq_some_iff_getElem] at hf
    obtain ⟨hn, hk, _⟩ := hf
    have hk : e.labels[n] = (c, pc) := by simpa using hk
    exact ⟨e.labels, n, rfl, List.prefix_refl _, List.getElem?_eq_some_iff.mpr ⟨hn, hk⟩⟩
  | none => exact ⟨_, _, rfl, prefix_append _ _, by simp⟩

theorem pushJump_spec (e : Emission ω κ) (c pc : ℕ) :
    Extends e (e.pushJump c pc) ∧ (e.pushJump c pc).position = e.position ∧
      (e.pushJump c pc).contexts = e.contexts ∧
      ∃ n, (e.pushJump c pc).out[e.out.length]? = some (.jump n) ∧
        (e.pushJump c pc).labels[n]? = some (c, pc) := by
  obtain ⟨l, n, hla, hl, hn⟩ := label_spec e c pc
  simp only [Emission.pushJump, hla]
  exact ⟨⟨prefix_append _ _, hl, prefix_refl _, fun _ _ => id⟩, rfl, rfl, n,
    by simp [Emission.push], hn⟩

end Growth

section Realisation

variable {e e' : Emission ω κ} {c pc p q : ℕ}

def Next (e : Emission ω κ) (c pc q : ℕ) : Prop :=
  e.position (c, pc) = some q ∨ ∃ n, e.out[q]? = some (.jump n) ∧ e.labels[n]? = some (c, pc)

inductive Realises (operations : List (Operation ω κ)) (e : Emission ω κ) (c pc p : ℕ) : Prop
  | plain {operation : ω} (hop : operations[pc]? = some (.plain operation))
      (hout : e.out[p]? = some (.plain operation)) (hnext : Next e c (pc + 1) (p + 1))
  | frame {operation : Operation ω κ} (hop : operations[pc]? = some operation)
      (hframe : (∃ frame, operation = .callableFramePop frame) ∨
        ∃ frame, operation = .callableFramePush frame true)
      (hnext : Next e c (pc + 1) p)
  | call {target returnTarget c' n : ℕ} (hop : operations[pc]? = some (.call target returnTarget))
      (hcallee : c < c') (hcontext : e.contexts[c']? = some (some n))
      (hlabel : e.labels[n]? = some (c, returnTarget)) (hentry : e.position (c', target) = some p)
  | ret {n : ℕ} (hop : operations[pc]? = some .ret) (hcontext : e.contexts[c]? = some (some n))
      (hout : e.out[p]? = some (.jump n))
  | jump {target n : ℕ} (hop : operations[pc]? = some (.jump target))
      (hout : e.out[p]? = some (.jump n)) (hlabel : e.labels[n]? = some (c, target))
  | branch {condition : κ} {whenTrue whenFalse m n : ℕ}
      (hop : operations[pc]? = some (.branch condition whenTrue whenFalse))
      (hout : e.out[p]? = some (.branch condition m n)) (htrue : e.labels[m]? = some (c, whenTrue))
      (hfalse : e.labels[n]? = some (c, whenFalse))
  | halt (hop : operations[pc]? = some .halt) (hout : e.out[p]? = some .halt)

theorem Next.extends (h : Next e c pc q) (he : Extends e e') : Next e' c pc q := by
  rcases h with hp | ⟨n, ho, hl⟩
  · exact .inl (he.position _ _ hp)
  · exact .inr ⟨n, getElem_of_isPrefix he.out ho, getElem_of_isPrefix he.labels hl⟩

theorem Realises.extends (h : Realises o e c pc p) (he : Extends e e') : Realises o e' c pc p := by
  cases h with
  | plain ho hou hn =>
    exact .plain ho (getElem_of_isPrefix he.out hou) (hn.extends he)
  | frame ho hf hn => exact .frame ho hf (hn.extends he)
  | call ho hca hc hl hen =>
    exact .call ho hca (getElem_of_isPrefix he.contexts hc)
      (getElem_of_isPrefix he.labels hl) (he.position _ _ hen)
  | ret ho hc hou =>
    exact .ret ho (getElem_of_isPrefix he.contexts hc) (getElem_of_isPrefix he.out hou)
  | jump ho hou hl =>
    exact .jump ho (getElem_of_isPrefix he.out hou) (getElem_of_isPrefix he.labels hl)
  | branch ho hou ht hfa =>
    exact .branch ho (getElem_of_isPrefix he.out hou)
      (getElem_of_isPrefix he.labels ht) (getElem_of_isPrefix he.labels hfa)
  | halt ho hou => exact .halt ho (getElem_of_isPrefix he.out hou)

theorem Realises.plain_out {op : ω} (h : Realises o e c pc p)
    (ho : o[pc]? = some (.plain op)) : e.out[p]? = some (.plain op) := by
  cases h with
  | plain hp hou =>
    rw [ho] at hp
    cases hp
    exact hou
  | frame hf hk =>
    rw [ho] at hf
    cases hf
    rcases hk with ⟨_, hk⟩ | ⟨_, hk⟩ <;> cases hk
  | call hc => simp [ho] at hc
  | ret hr => simp [ho] at hr
  | jump hj => simp [ho] at hj
  | branch hb => simp [ho] at hb
  | halt hh => simp [ho] at hh

end Realisation

/-- The positions whose code is expanded: the program up to the loop jump, and the regions of the
callees of expanded calls. -/
inductive Expanded (operations : List (Operation ω κ)) (jump : ℕ) : ℕ → Prop
  | program {pc : ℕ} (h : pc ≤ jump) : Expanded operations jump pc
  | callee {pc target returnTarget callee : ℕ} {region : List ℕ}
      (h : Expanded operations jump pc) (hcall : operations[pc]? = some (.call target returnTarget))
      (hregion : calleeRegion operations target = some region) (hcallee : callee ∈ region) :
      Expanded operations jump callee

/-- The code of every expanded callee begins with its entry, and no expanded operation names
positions of the code. -/
structure Expandable (operations : List (Operation ω κ)) (jump : ℕ) : Prop where
  entries : ∀ pc target returnTarget region, Expanded operations jump pc →
    operations[pc]? = some (.call target returnTarget) →
    calleeRegion operations target = some region → region.head? = some target
  positionless : ∀ pc operation positions, Expanded operations jump pc →
    operations[pc]? ≠ some (.positioned operation positions)

theorem calleeRegion_nodup {entry : ℕ} {region : List ℕ}
    (h : calleeRegion o entry = some region) : region.Nodup := by
  obtain ⟨v, _, rfl⟩ := Option.map_eq_some_iff.mp h
  exact nodup_range.filter _

section Emission

structure Ready (operations : List (Operation ω κ)) (jump c : ℕ) (region : List ℕ)
    (e : Emission ω κ) : Prop where
  fresh : ∀ pc ∈ region, e.position (c, pc) = none
  nodup : region.Nodup
  context : c < e.contexts.length
  bounded : ∀ key, e.position key ≠ none → key.1 < e.contexts.length
  expanded : ∀ pc ∈ region, Expanded operations jump pc

structure Adds (operations : List (Operation ω κ)) (c : ℕ) (positions : List ℕ)
    (e e' : Emission ω κ) : Prop where
  grown : Extends e e'
  places : ∀ key, e'.position key ≠ none →
    e.position key ≠ none ∨ (key.1 = c ∧ key.2 ∈ positions) ∨ e.contexts.length ≤ key.1
  bounded : ∀ key, e'.position key ≠ none → key.1 < e'.contexts.length
  realised : ∀ key p, e'.position key = some p →
    e.position key = some p ∨ Realises operations e' key.1 key.2 p

structure Emitted (operations : List (Operation ω κ)) (c : ℕ) (region : List ℕ)
    (e e' : Emission ω κ) : Prop extends Adds operations c region e e' where
  first : ∀ pc, region.head? = some pc → e'.position (c, pc) = some e.out.length

def Correct (operations : List (Operation ω κ)) (jump : ℕ) (emitter : Emitter ω κ) : Prop :=
  ∀ active c region e e', Ready operations jump c region e →
    emitter active c region e = some e' → Emitted operations c region e e'

variable {jump c pc : ℕ} {active r : List ℕ} {callee : Emitter ω κ} {e e' : Emission ω κ}
  {op : Operation ω κ} {falls : Bool}

theorem Adds.straight (he : Extends e e') (hpo : e'.position = e.position)
    (hc : e'.contexts = e.contexts)
    (hb : ∀ key, e.position key ≠ none → key.1 < e.contexts.length) (c : ℕ) :
    Adds o c [] e e' :=
  ⟨he, fun key hk => .inl (hpo ▸ hk), fun key hk => by
    rw [hc]
    exact hb key (hpo ▸ hk), fun key p hp => .inl (hpo ▸ hp)⟩

theorem emitOperation_spec (hca : Correct o jump callee) (hen : Expandable o jump)
    (hc : c < e.contexts.length)
    (hb : ∀ key, e.position key ≠ none → key.1 < e.contexts.length)
    (ho : o[pc]? = some op) (hexp : Expanded o jump pc)
    (h : emitOperation o callee active c e op = some (e', falls)) : Adds o c [] e e' ∧
      (falls = false → Realises o e' c pc e.out.length) ∧
      (falls = true → ∀ e'', Extends e' e'' → Next e'' c (pc + 1) e'.out.length →
        Realises o e'' c pc e.out.length) := by
  cases op with
  | plain op =>
    obtain ⟨rfl, rfl⟩ : e.push (.plain op) = e' ∧ true = falls := by
      simpa [emitOperation] using h
    obtain ⟨he, hou⟩ := Extends.push e (.plain op)
    refine ⟨.straight he rfl rfl hb c, by simp, fun _ e'' hg hne => ?_⟩
    refine .plain ho (getElem_of_isPrefix hg.out hou) ?_
    simpa [Emission.push] using hne
  | positioned op positions => exact absurd ho (hen.positionless pc op positions hexp)
  | callableFramePush frame isolated =>
    cases isolated with
    | false => simp [emitOperation] at h
    | true =>
      obtain ⟨rfl, rfl⟩ : e = e' ∧ true = falls := by simpa [emitOperation] using h
      exact ⟨.straight (.refl e) rfl rfl hb c, by simp,
        fun _ e'' _ hne => .frame ho (.inr ⟨frame, rfl⟩) hne⟩
  | callableFramePop frame =>
    obtain ⟨rfl, rfl⟩ : e = e' ∧ true = falls := by simpa [emitOperation] using h
    exact ⟨.straight (.refl e) rfl rfl hb c, by simp,
      fun _ e'' _ hne => .frame ho (.inl ⟨frame, rfl⟩) hne⟩
  | ret =>
    simp only [emitOperation] at h
    split at h
    · next n hco =>
      obtain ⟨rfl, rfl⟩ : e.push (.jump n) = e' ∧ false = falls := by simpa using h
      obtain ⟨he, hou⟩ := Extends.push e (.jump n)
      exact ⟨.straight he rfl rfl hb c, fun _ => .ret ho hco hou, by simp⟩
    · simp at h
  | jump target =>
    obtain ⟨rfl, rfl⟩ : e.pushJump c target = e' ∧ false = falls := by
      simpa [emitOperation] using h
    obtain ⟨he, hp, hcn, n, hou, hl⟩ := pushJump_spec e c target
    exact ⟨.straight he hp hcn hb c, fun _ => .jump ho hou hl, by simp⟩
  | branch condition whenTrue w =>
    obtain ⟨labels, m, hl, hla, hm⟩ := label_spec e c whenTrue
    obtain ⟨l', n, hla', hl', hn⟩ := label_spec { e with labels } c w
    simp only [emitOperation, hl, hla'] at h
    obtain ⟨rfl, rfl⟩ := h
    have he : Extends e (Emission.push { e with labels := l' } (.branch condition m n)) :=
      ⟨prefix_append _ _, hla.trans hl', prefix_refl _, fun _ _ => id⟩
    refine ⟨.straight he rfl rfl hb c, fun _ => ?_, by simp⟩
    exact .branch ho (by simp [Emission.push]) (getElem_of_isPrefix hl' hm) hn
  | halt =>
    obtain ⟨rfl, rfl⟩ : e.push .halt = e' ∧ false = falls := by simpa [emitOperation] using h
    obtain ⟨he, hou⟩ := Extends.push e .halt
    exact ⟨.straight he rfl rfl hb c, fun _ => .halt ho hou, by simp⟩
  | call target resume =>
    obtain ⟨labels, n, hl, hla, hn⟩ := label_spec e c resume
    simp only [emitOperation, hl] at h
    split_ifs at h
    obtain ⟨region, hr, h⟩ := Option.bind_eq_some_iff.mp h
    obtain ⟨emitted, hemi, h⟩ := Option.bind_eq_some_iff.mp h
    obtain ⟨rfl, rfl⟩ : emitted = e' ∧ false = falls := by simpa using h
    set entered : Emission ω κ :=
      { e with labels, contexts := e.contexts ++ [some n], called := true }
    have hnw : ∀ key, e.position key ≠ none → key.1 < entered.contexts.length :=
      fun key hk => by
      have := hb key hk
      simp [entered]
      omega
    have hre : Ready o jump e.contexts.length region entered := by
      refine ⟨fun q _ => ?_, calleeRegion_nodup hr, by simp [entered], hnw,
        fun q hq => hexp.callee ho hr hq⟩
      by_contra hpl
      exact absurd (hb _ hpl) (Nat.lt_irrefl _)
    have hem := hca _ _ _ _ _ hre hemi
    have hent : Extends e entered := ⟨prefix_refl _, hla, prefix_append _ _, fun _ _ => id⟩
    refine ⟨{ hem with grown := hent.trans hem.grown, places := fun key hk => ?_ },
      fun _ => ?_, by simp⟩
    · rcases hem.places key hk with hold | ⟨hco, _⟩ | hco
      · exact .inl hold
      · exact .inr (.inr (Nat.le_of_eq hco.symm))
      · refine .inr (.inr (Nat.le_trans ?_ hco))
        simp [entered]
    · have hf := hem.first target (hen.entries pc target resume region hexp ho hr)
      exact .call ho hc (getElem_of_isPrefix hem.grown.contexts (by simp [entered]))
        (getElem_of_isPrefix hem.grown.labels hn) hf

theorem fallsThrough_spec (e : Emission ω κ) (falls : Bool) (c pc : ℕ) (r : List ℕ) :
    ∃ e', (if falls && r.head? ≠ some (pc + 1) then e.pushJump c (pc + 1) else e) = e' ∧
      Extends e e' ∧ e'.position = e.position ∧ e'.contexts = e.contexts ∧
      (falls = true → (r.head? = some (pc + 1) ∧ e'.out.length = e.out.length) ∨
        Next e' c (pc + 1) e.out.length) := by
  refine ⟨_, rfl, ?_⟩
  split_ifs with hj
  · obtain ⟨he, hp, hc, hn⟩ := pushJump_spec e c (pc + 1)
    exact ⟨he, hp, hc, fun _ => .inr (.inr hn)⟩
  · refine ⟨.refl e, rfl, rfl, fun hf => .inl ⟨?_, rfl⟩⟩
    simpa [hf] using hj

theorem emitRegion_correct (hca : Correct o jump callee) (hen : Expandable o jump) :
    Correct o jump (emitRegion o callee) := by
  intro active c region
  induction region with
  | nil =>
    intro e e' hr h
    obtain rfl : e = e' := by simpa [emitRegion] using h
    exact ⟨⟨.refl e, fun _ => .inl, hr.bounded, fun _ _ => .inl⟩, by simp⟩
  | cons pc r ih =>
    intro e e' hr h
    rw [emitRegion] at h
    split_ifs at h
    obtain ⟨op, hop, hru⟩ := Option.bind_eq_some_iff.mp h
    obtain ⟨⟨e₁, falls⟩, ho, hem⟩ := Option.bind_eq_some_iff.mp hru
    have hf : e.position (c, pc) = none := hr.fresh pc (by simp)
    set placed := e.place c pc with hplac
    have hpla : placed.position = Function.update e.position (c, pc) (some e.out.length) := by
      simp [placed, Emission.place, hf]
    have hke : ∀ key, key ≠ (c, pc) → placed.position key = e.position key := fun key hk => by
      rw [hpla, Function.update_of_ne hk]
    have hs : placed.position (c, pc) = some e.out.length := by rw [hpla, Function.update_self]
    have hst : Extends e placed := by
      refine ⟨prefix_refl _, prefix_refl _, prefix_refl _, fun key p hp => ?_⟩
      have hk : key ≠ (c, pc) := by
        rintro rfl
        simp [hf] at hp
      rw [hke key hk, hp]
    have hb : ∀ key, placed.position key ≠ none → key.1 < placed.contexts.length := by
      intro key hk
      by_cases heq : key = (c, pc)
      · subst heq
        exact hr.context
      · rw [hke key heq] at hk
        exact hr.bounded key hk
    have hc : c < placed.contexts.length := hr.context
    obtain ⟨ha, hsto, hfa⟩ := emitOperation_spec hca hen hc hb hop (hr.expanded pc (by simp)) ho
    obtain ⟨e₂, hbe, hg, hpo, hco, hn⟩ := fallsThrough_spec e₁ falls c pc r
    simp only [hbe] at hem
    have hno := nodup_cons.mp hr.nodup
    have hl : placed.contexts.length ≤ e₁.contexts.length := ha.grown.contexts.length_le
    have hrs : Ready o jump c r e₂ := by
      refine ⟨fun q hq => ?_, hno.2, ?_, fun key hk => ?_,
        fun q hq => hr.expanded q (by simp [hq])⟩
      · by_contra hpl
        rw [hpo] at hpl
        have hne : (c, q) ≠ (c, pc) := fun heq => hno.1 ((Prod.mk.inj heq).2 ▸ hq)
        rcases ha.places (c, q) hpl with hold | ⟨_, hni⟩ | hc
        · exact hold ((hke _ hne).trans (hr.fresh q (by simp [hq])))
        · simp at hni
        · exact absurd hr.context (Nat.not_lt.mpr hc)
      · rw [hco]
        exact Nat.lt_of_lt_of_le hr.context hl
      · rw [hco]
        exact ha.bounded key (hpo ▸ hk)
    have he := ih e₂ e' hrs hem
    have hcd := hg.trans he.grown
    have hrl : Realises o e' c pc e.out.length := by
      cases falls with
      | false => exact (hsto rfl).extends hcd
      | true =>
        refine hfa rfl e' hcd ?_
        rcases hn rfl with ⟨hh, hou⟩ | hn
        · exact .inl (hou ▸ he.first (pc + 1) hh)
        · exact hn.extends he.grown
    have hal : Extends e e' := hst.trans (ha.grown.trans hcd)
    refine ⟨⟨hal, fun key hk => ?_, he.bounded, fun key p hp => ?_⟩, fun q hq => ?_⟩
    · rcases he.places key hk with hold | ⟨hk, hm⟩ | hc
      · rcases ha.places key (hpo ▸ hold) with hold | ⟨_, hni⟩ | hc
        · by_cases heq : key = (c, pc)
          · exact .inr (.inl ⟨congrArg Prod.fst heq, by simp [heq]⟩)
          · exact .inl (hke key heq ▸ hold)
        · simp at hni
        · exact .inr (.inr hc)
      · exact .inr (.inl ⟨hk, by simp [hm]⟩)
      · rw [hco] at hc
        exact .inr (.inr (Nat.le_trans hl hc))
    · rcases he.realised key p hp with hold | hre
      · rcases ha.realised key p (hpo ▸ hold) with hold | hre
        · by_cases heq : key = (c, pc)
          · subst heq
            obtain rfl : e.out.length = p := Option.some.inj (hs.symm.trans hold)
            exact .inr hrl
          · exact .inl (hke key heq ▸ hold)
        · exact .inr (hre.extends hcd)
      · exact .inr hre
    · obtain rfl : pc = q := by simpa using hq
      exact ha.grown.trans hcd |>.position _ _ hs

theorem emit_correct (he : Expandable o jump) (d : ℕ) : Correct o jump (emit o d) := by
  induction d with
  | zero =>
    refine emitRegion_correct (fun _ _ _ _ _ _ h => ?_) he
    simp at h
  | succ d ih => exact emitRegion_correct ih he

end Emission

end FsimRuntime.InlineCalls

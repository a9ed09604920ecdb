import FsimRuntime.SvaProperty

/-!
# The meaning of properties

Properties on an infinite trace as in IEEE 1800-2017 16.12 (`Sat`), with the
match ticks of the matcher as the meaning of sequences. The abort operators
compare the abort condition with what the trace before it has settled, so
beside it stands the meaning on a finite prefix (`Settled`): the truncated
semantics, in which a prefix settles a property when every operand that
matters is settled.
-/

namespace FsimRuntime.Sva

variable {Program State : Type} (M : Matcher Program State)

def Matcher.stateAt (program : Program) (w : ℕ → Sample) (s : ℕ) : ℕ → State
  | 0 => M.start program s
  | n + 1 =>
    if n < s then M.start program s
    else (M.step program (Matcher.stateAt program w s n) n (w n)).2

def Matcher.Matched (program : Program) (w : ℕ → Sample) (s e : ℕ) : Prop :=
  s ≤ e ∧ (M.step program (M.stateAt program w s e) e (w e)).1 = true

def Matcher.DeadBy (program : Program) (w : ℕ → Sample) (s n : ℕ) : Prop :=
  s < n ∧ M.dead (M.stateAt program w s n) = true

def next (overlapped : Bool) (e : ℕ) : ℕ := if overlapped then e else e + 1

def InWindow (lo : ℕ) (hi : Option ℕ) (s t : ℕ) : Prop := s + lo ≤ t ∧
    ∀ h ∈ hi, t ≤ s + h

def Connective.Settles (left right : Bool → Prop) : Connective → Bool → Prop
  | .conjunction, true => left true ∧ right true
  | .conjunction, false => left false ∨ right false
  | .disjunction, true => left true ∨ right true
  | .disjunction, false => left false ∧ right false
  | .implies, true => left false ∨ right true
  | .implies, false => left true ∧ right false
  | .equivalence, true => left true ∧ right true ∨ left false ∧ right false
  | .equivalence, false => left true ∧ right false ∨ left false ∧ right true

def Connective.Sat (left right : Prop) : Connective → Prop
  | .conjunction => left ∧ right
  | .disjunction => left ∨ right
  | .implies => left → right
  | .equivalence => left ↔ right

def Settled (w : ℕ → Sample) : Property Program → (value : Bool) → (n s : ℕ) → Prop
  | .sequence _ program, true, n, s => ∃ e < n, M.Matched program w s e
  | .sequence _ program, false, n, s =>
    M.DeadBy program w s n ∧ ∀ e < n, ¬M.Matched program w s e
  | .negation p, value, n, s => Settled w p (!value) n s
  | .connective kind l r, value, n, s =>
    kind.Settles (fun v => Settled w l v n s) (fun v => Settled w r v n s) value
  | .consequents early overlapped antecedent p, value, n, s =>
    if value = early then
      ∃ e < n, M.Matched antecedent w s e ∧ Settled w p value n (next overlapped e)
    else
      M.DeadBy antecedent w s n ∧
        ∀ e < n, M.Matched antecedent w s e → Settled w p value n (next overlapped e)
  | .conditional guard p q, value, n, s =>
    if w s guard then Settled w p value n s else Settled w q value n s
  | .conditionalAlone guard p, value, n, s =>
    if w s guard then Settled w p value n s else value = true ∧ s < n
  | .nexttime lo p, value, n, s => Settled w p value n (s + lo)
  | .window early lo hi p, value, n, s =>
    if value = early then ∃ t, InWindow lo hi s t ∧ Settled w p value n t
    else (∃ h ∈ hi, s + h < n) ∧ ∀ t, InWindow lo hi s t → Settled w p value n t
  | .until _ l r, true, n, s =>
    ∃ k, s ≤ k ∧ Settled w r true n k ∧ ∀ j, s ≤ j → j < k → Settled w l true n j
  | .until _ l r, false, n, s =>
    ∃ j, s ≤ j ∧ Settled w l false n j ∧ ∀ k, s ≤ k → k ≤ j →
      Settled w r false n k
  | .abort early guard p, value, n, s =>
    if value = early then
      Settled w p value n s ∨
        ∃ i < n, s ≤ i ∧ w i guard = true ∧ ¬Settled w p (!value) i s
    else
      Settled w p value n s ∧ ∀ i < n, s ≤ i → w i guard = true → Settled w p value i s
  | .vacuous, value, n, s => value = true ∧ s < n

def Sat (w : ℕ → Sample) : Property Program → ℕ → Prop
  | .sequence strong program, s =>
    (∃ e, M.Matched program w s e) ∨ strong = false ∧ ∀ n, ¬M.DeadBy program w s n
  | .negation p, s => ¬Sat w p s
  | .connective kind l r, s => kind.Sat (Sat w l s) (Sat w r s)
  | .consequents false overlapped antecedent p, s =>
    ∀ e, M.Matched antecedent w s e → Sat w p (next overlapped e)
  | .consequents true overlapped antecedent p, s =>
    ∃ e, M.Matched antecedent w s e ∧ Sat w p (next overlapped e)
  | .conditional guard p q, s => if w s guard then Sat w p s else Sat w q s
  | .conditionalAlone guard p, s => w s guard = true → Sat w p s
  | .nexttime lo p, s => Sat w p (s + lo)
  | .window false lo hi p, s => ∀ t, InWindow lo hi s t → Sat w p t
  | .window true lo hi p, s => ∃ t, InWindow lo hi s t ∧ Sat w p t
  | .until strong l r, s =>
    (∃ k, s ≤ k ∧ Sat w r k ∧ ∀ j, s ≤ j → j < k → Sat w l j) ∨
      strong = false ∧ ∀ j, s ≤ j → Sat w l j
  | .abort true guard p, s =>
    (Sat w p s ∧ ∀ i, s ≤ i → w i guard = false) ∨
      ∃ i, s ≤ i ∧ w i guard = true ∧ ¬Settled M w p false i s
  | .abort false guard p, s =>
    (Sat w p s ∨ ∃ i, s ≤ i ∧ w i guard = true) ∧
      ∀ i, s ≤ i → w i guard = true → Settled M w p true i s
  | .vacuous, _ => True

section Matchers

variable {M} {program : Program} {w w' : ℕ → Sample} {s n m e : ℕ}

theorem Matcher.stateAt_of_le (h : n ≤ s) : M.stateAt program w s n = M.start program s := by
  cases n with
  | zero => rfl
  | succ n => exact if_pos (by omega)

theorem Matcher.stateAt_succ (h : s ≤ n) : M.stateAt program w s (n + 1) =
    (M.step program (M.stateAt program w s n) n (w n)).2 := if_neg (by omega)

theorem Matcher.DeadBy.mono (h : M.DeadBy program w s n) (hn : n ≤ m) :
    M.DeadBy program w s m := by
  induction m, hn using Nat.le_induction with
  | base => exact h
  | succ m _ ih =>
    refine ⟨ih.1.trans (Nat.lt_succ_self m), ?_⟩
    rw [stateAt_succ ih.1.le]
    exact (M.step_dead _ _ _ _ ih.2).2

theorem Matcher.DeadBy.lt (h : M.DeadBy program w s n) (hm : M.Matched program w s e) : e < n := by
  by_contra hl
  have := (M.step_dead program _ e (w e) (h.mono (not_lt.mp hl)).2).1
  exact Bool.false_ne_true (this.symm.trans hm.2)

section
variable (h : ∀ i < n, w i = w' i)
include h

theorem Matcher.stateAt_congr : M.stateAt program w s n = M.stateAt program w' s n := by
  induction n with
  | zero => rfl
  | succ n ih => rw [stateAt, stateAt, ih fun i hi => h i (by omega), h n (by omega)]

theorem Matcher.matched_congr (he : e < n) :
    M.Matched program w s e ↔ M.Matched program w' s e := by
  rw [Matched, Matched, stateAt_congr fun i hi => h i (hi.trans he), h e he]

theorem Matcher.deadBy_congr :
    M.DeadBy program w s n ↔ M.DeadBy program w' s n := by rw [DeadBy, DeadBy, stateAt_congr h]

end

end Matchers

section Prefixes

variable {M} {p : Property Program} {w w' : ℕ → Sample} {value : Bool} {s n m e : ℕ}

theorem le_next {o : Bool} : e ≤ next o e := by
  cases o <;> simp [next]

theorem Connective.Settles.imp {left right l' r' : Bool → Prop} {k : Connective}
    (hl : ∀ v, left v → l' v) (hr : ∀ v, right v → r' v)
    (h : k.Settles left right value) : k.Settles l' r' value := by
  cases k <;> cases value <;> simp only [Settles] at h ⊢ <;> grind

section
variable (h : Settled M w p value n s)
include h

theorem Settled.lt : s < n := by
  induction p generalizing value n s with
  | sequence strong program =>
    cases value with
    | true =>
      obtain ⟨e, he, hs, -⟩ := h
      omega
    | false => exact h.1.1
  | negation p ih => exact ih h
  | connective kind l r ihl ihr =>
    cases kind <;> cases value <;> simp only [Settled, Connective.Settles] at h <;> grind
  | consequents early o a p ih =>
    simp only [Settled] at h
    split at h
    · obtain ⟨e, he, ⟨hs, -⟩, -⟩ := h
      omega
    · exact h.1.1
  | conditional g p q ihp ihq =>
    simp only [Settled] at h
    split at h
    · exact ihp h
    · exact ihq h
  | conditionalAlone g p ih =>
    simp only [Settled] at h
    split at h
    · exact ih h
    · exact h.2
  | nexttime lo p ih => exact (Nat.le_add_right s lo).trans_lt (ih h)
  | window early lo hi p ih =>
    simp only [Settled] at h
    split at h
    · obtain ⟨t, ⟨hst, -⟩, ht⟩ := h
      have := ih ht
      omega
    · omega
  | «until» strong l r ihl ihr =>
    cases value with
    | true =>
      obtain ⟨k, hsk, hk, -⟩ := h
      exact hsk.trans_lt (ihr hk)
    | false =>
      obtain ⟨j, hsj, hj, -⟩ := h
      exact hsj.trans_lt (ihl hj)
  | abort early g p ih =>
    simp only [Settled] at h
    split at h
    · rcases h with h | ⟨i, hi, hsi, -⟩
      · exact ih h
      · omega
    · exact ih h.1
  | vacuous => exact h.2

theorem Settled.mono (hn : n ≤ m) : Settled M w p value m s := by
  induction p generalizing value n m s with
  | sequence strong program =>
    cases value with
    | true =>
      obtain ⟨e, hen, he⟩ := h
      exact ⟨e, hen.trans_le hn, he⟩
    | false => exact ⟨h.1.mono hn, fun e _ he => h.2 e (h.1.lt he) he⟩
  | negation p ih | nexttime lo p ih => exact ih h hn
  | connective kind l r ihl ihr =>
    exact Connective.Settles.imp (fun _ hl => ihl hl hn) (fun _ hr => ihr hr hn) h
  | consequents early o a p ih =>
    simp only [Settled] at h ⊢
    split_ifs at h ⊢
    · obtain ⟨e, hen, he, hp⟩ := h
      exact ⟨e, hen.trans_le hn, he, ih hp hn⟩
    · exact ⟨h.1.mono hn, fun e _ he => ih (h.2 e (h.1.lt he) he) hn⟩
  | conditional g p q ihp ihq =>
    simp only [Settled] at h ⊢
    split_ifs at h ⊢
    · exact ihp h hn
    · exact ihq h hn
  | conditionalAlone g p ih =>
    simp only [Settled] at h ⊢
    split_ifs at h ⊢
    · exact ih h hn
    · exact ⟨h.1, h.2.trans_le hn⟩
  | window early lo hi p ih =>
    simp only [Settled] at h ⊢
    split_ifs at h ⊢
    · obtain ⟨t, hw, ht⟩ := h
      exact ⟨t, hw, ih ht hn⟩
    · obtain ⟨⟨h', hh, hlt⟩, ha⟩ := h
      exact ⟨⟨h', hh, hlt.trans_le hn⟩, fun t ht => ih (ha t ht) hn⟩
  | «until» strong l r ihl ihr =>
    cases value with
    | true =>
      obtain ⟨k, hs, hk, hl⟩ := h
      exact ⟨k, hs, ihr hk hn, fun j hsj hjk => ihl (hl j hsj hjk) hn⟩
    | false =>
      obtain ⟨j, hsj, hj, hr⟩ := h
      exact ⟨j, hsj, ihl hj hn, fun k hs hkj => ihr (hr k hs hkj) hn⟩
  | abort early g p ih =>
    simp only [Settled] at h ⊢
    split_ifs at h ⊢
    · rcases h with h | ⟨i, hi, hre⟩
      · exact .inl (ih h hn)
      · exact .inr ⟨i, hi.trans_le hn, hre⟩
    · refine ⟨ih h.1 hn, fun i hi hsi hg => ?_⟩
      rcases lt_or_ge i n with hin | hni
      · exact h.2 i hin hsi hg
      · exact ih h.1 hni
  | vacuous => exact ⟨h.1, h.2.trans_le hn⟩

theorem Settled.sat : Sat M w p s ↔ value = true := by
  induction p generalizing value n s with
  | sequence strong program =>
    cases value with
    | true =>
      obtain ⟨e, -, he⟩ := h
      exact iff_of_true (.inl ⟨e, he⟩) rfl
    | false =>
      refine iff_of_false ?_ Bool.false_ne_true
      rintro (⟨e, he⟩ | ⟨-, hd⟩)
      · exact h.2 e (h.1.lt he) he
      · exact hd n h.1
  | negation p ih =>
    rw [Sat, ih h]
    cases value <;> simp
  | connective kind l r ihl ihr =>
    cases kind <;> cases value <;> simp only [Settled, Connective.Settles, Sat, Connective.Sat]
      at h ⊢ <;> grind
  | consequents early o a p ih =>
    cases early <;> cases value <;> simp only [Bool.false_eq_true] at h ⊢
    · obtain ⟨e, -, he, hp⟩ := h
      exact iff_of_false (fun ha => Bool.false_ne_true ((ih hp).mp (ha e he))) id
    · exact iff_of_true (fun e he => (ih (h.2 e (h.1.lt he) he)).mpr rfl) trivial
    · refine iff_of_false ?_ id
      rintro ⟨e, he, hp⟩
      exact Bool.false_ne_true ((ih (h.2 e (h.1.lt he) he)).mp hp)
    · obtain ⟨e, -, he, hp⟩ := h
      exact iff_of_true ⟨e, he, (ih hp).mpr rfl⟩ trivial
  | conditional g p q ihp ihq =>
    simp only [Settled, Sat] at h ⊢
    split_ifs at h ⊢
    · exact ihp h
    · exact ihq h
  | conditionalAlone g p ih =>
    simp only [Settled] at h ⊢
    split_ifs at h with hg
    · rw [← ih h]
      exact ⟨fun him => him hg, fun hp _ => hp⟩
    · exact iff_of_true (fun htr => absurd htr hg) h.1
  | nexttime lo p ih => exact ih h
  | window early lo hi p ih =>
    cases early <;> cases value <;> simp only [Bool.false_eq_true] at h ⊢
    · obtain ⟨t, ht, hp⟩ := h
      exact iff_of_false (fun ha => Bool.false_ne_true ((ih hp).mp (ha t ht))) id
    · exact iff_of_true (fun t ht => (ih (h.2 t ht)).mpr rfl) trivial
    · refine iff_of_false ?_ id
      rintro ⟨t, ht, hp⟩
      exact Bool.false_ne_true ((ih (h.2 t ht)).mp hp)
    · obtain ⟨t, ht, hp⟩ := h
      exact iff_of_true ⟨t, ht, (ih hp).mpr rfl⟩ trivial
  | «until» strong l r ihl ihr =>
    cases value with
    | true =>
      obtain ⟨k, hsk, hk, hl⟩ := h
      exact iff_of_true (.inl ⟨k, hsk, (ihr hk).mpr rfl,
        fun j hsj hjk => (ihl (hl j hsj hjk)).mpr rfl⟩) rfl
    | false =>
      obtain ⟨j, hsj, hj, hr⟩ := h
      have hle : ¬Sat M w l j := fun hsa => Bool.false_ne_true ((ihl hj).mp hsa)
      refine iff_of_false ?_ Bool.false_ne_true
      rintro (⟨k, hsk, hk, hl⟩ | ⟨-, hl⟩)
      · rcases lt_or_ge j k with hjk | hkj
        · exact hle (hl j hsj hjk)
        · exact Bool.false_ne_true ((ihr (hr k hsk hkj)).mp hk)
      · exact hle (hl j hsj)
  | abort early g p ih =>
    -- An abort after the operand is settled finds it settled.
    have hla : ∀ {v i}, Settled M w p v n s → (∀ i < n, s ≤ i → w i g = true →
        Settled M w p v i s) → s ≤ i → w i g = true → Settled M w p v i s := by
      intro v i hn ha hs hg
      rcases lt_or_ge i n with hin | hni
      · exact ha i hin hs hg
      · exact hn.mono hni
    have hexc : ∀ {v i}, (Sat M w p s ↔ v = true) → ¬Settled M w p (!v) i s := by
      intro v i hsa hno
      have := (ih hno).symm.trans hsa
      cases v <;> simp at this
    cases early <;> cases value <;> simp only [Bool.false_eq_true] at h ⊢
    · refine iff_of_false ?_ id
      rintro ⟨ho, ha⟩
      rcases h with h | ⟨i, -, hs, hg, hno⟩
      · rcases ho with hsa | ⟨i, hs, hg⟩
        · exact Bool.false_ne_true ((ih h).mp hsa)
        · exact hexc (ih h) (ha i hs hg)
      · exact hno (ha i hs hg)
    · exact iff_of_true ⟨.inl ((ih h.1).mpr rfl), fun i => hla h.1 h.2⟩ trivial
    · refine iff_of_false ?_ id
      rintro (⟨hsa, -⟩ | ⟨i, hs, hg, hno⟩)
      · exact Bool.false_ne_true ((ih h.1).mp hsa)
      · exact hno (hla h.1 h.2 hs hg)
    · refine iff_of_true ?_ trivial
      rcases h with h | ⟨i, -, hs, hg, hno⟩
      · by_cases hab : ∃ i, s ≤ i ∧ w i g = true
        · obtain ⟨i, hs, hg⟩ := hab
          exact .inr ⟨i, hs, hg, hexc (ih h)⟩
        · simp only [not_exists, not_and, Bool.not_eq_true] at hab
          exact .inl ⟨(ih h).mpr rfl, hab⟩
      · exact .inr ⟨i, hs, hg, hno⟩
  | vacuous => exact iff_of_true trivial h.1

theorem Settled.unique {v' : Bool} (h' : Settled M w p v' m s) : value = v' :=
  Bool.eq_iff_iff.mpr (h.sat.symm.trans h'.sat)

end

theorem settled_congr (h : ∀ i < n, w i = w' i) :
    Settled M w p value n s ↔ Settled M w' p value n s := by
  induction p generalizing value n s with
  | sequence strong program =>
    cases value with
    | true => exact exists_congr fun e => and_congr_right fun he => Matcher.matched_congr h he
    | false =>
      exact and_congr (Matcher.deadBy_congr h) (forall₂_congr fun e he =>
        not_congr (Matcher.matched_congr h he))
  | negation p ih | nexttime lo p ih => exact ih h
  | connective k l r ihl ihr =>
    exact ⟨Connective.Settles.imp (fun _ => (ihl h).mp) (fun _ => (ihr h).mp),
      Connective.Settles.imp (fun _ => (ihl h).mpr) (fun _ => (ihr h).mpr)⟩
  | consequents early o a p ih =>
    simp only [Settled]
    split_ifs
    · exact exists_congr fun e => and_congr_right fun he =>
        and_congr (Matcher.matched_congr h he) (ih h)
    · exact and_congr (Matcher.deadBy_congr h) (forall₂_congr fun e he =>
        imp_congr (Matcher.matched_congr h he) (ih h))
  | conditional g p q ihp ihq =>
    rcases lt_or_ge s n with hsn | hn
    · simp [Settled, h s hsn, ihp h, ihq h]
    · exact iff_of_false (fun hs => hs.lt.not_ge hn) (fun hs => hs.lt.not_ge hn)
  | conditionalAlone g p ih =>
    rcases lt_or_ge s n with hsn | hn
    · simp [Settled, h s hsn, ih h]
    · exact iff_of_false (fun hs => hs.lt.not_ge hn) (fun hs => hs.lt.not_ge hn)
  | window early lo hi p ih => simp [Settled, ih h]
  | «until» strong l r ihl ihr => cases value <;> simp [Settled, ihl h, ihr h]
  | abort early g p ih =>
    have hb : ∀ i < n, ∀ v, Settled M w p v i s ↔ Settled M w' p v i s :=
      fun i hi v => ih fun i' hi' => h i' (hi'.trans hi)
    simp only [Settled, ih h]
    split_ifs
    · refine or_congr_right (exists_congr fun i => and_congr_right fun hi => ?_)
      rw [h i hi, hb i hi]
    · refine and_congr_right fun _ => forall₂_congr fun i hi => ?_
      rw [h i hi, hb i hi]
  | vacuous => rfl

end Prefixes

end FsimRuntime.Sva

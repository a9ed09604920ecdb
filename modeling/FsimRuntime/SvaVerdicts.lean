import FsimRuntime.SvaMatcher
import FsimRuntime.SvaOperands

/-!
# Verdicts of attempts

`step_until`, and the verdict of a whole property. The scan over `until_`
answers `fails` at the first failed left operand as soon as no right operand up
to it is undecided, also when one of these holds and only waits for an earlier
left operand (`Overtaken`). Where no `until` of the attempt meets that, a
verdict is what every infinite continuation of the trace says.
-/

namespace FsimRuntime.Sva

open Instance List Nat

variable {Program State : Type} {M : Matcher Program State} {p l r : Property Program}
  {w w' : ℕ → Sample} {value : Bool} {s t n m : ℕ}

section Until

variable {L R : ℕ → Instance State} {a len : ℕ} {e rightPending stopped : Bool}

def entriesOf (L R : ℕ → Instance State) (a len : ℕ) :
    List (Instance State × Instance State) :=
  (range' a len).map fun t => (L t, R t)

theorem entriesOf_succ : entriesOf L R a (len + 1) = (L a, R a) :: entriesOf L R (a + 1) len := rfl

def HoldsAt (L R : ℕ → Instance State) (a k : ℕ) : Prop :=
  a ≤ k ∧ (R k).verdict = .of true ∧ ∀ j, a ≤ j → j < k → (L j).verdict = .of true

def FailsAt (L : ℕ → Instance State) (a j : ℕ) : Prop :=
  a ≤ j ∧ (L j).verdict = .of false ∧ ∀ i, a ≤ i → i < j → (L i).verdict ≠ .of false

variable {k b : ℕ} {i : Instance State}

theorem holdsAt_succ (h : HoldsAt L R (a + 1) k) (ha : (L a).verdict = .of true) :
    HoldsAt L R a k := by
  refine ⟨by have := h.1; omega, h.2.1, fun j haj hj => ?_⟩
  rcases eq_or_lt_of_le haj with rfl | hl
  · exact ha
  · exact h.2.2 j hl hj

theorem failsAt_succ {j : ℕ} (h : FailsAt L (a + 1) j) (ha : (L a).verdict ≠ .of false) :
    FailsAt L a j := by
  refine ⟨by have := h.1; omega, h.2.1, fun i hai hij => ?_⟩
  rcases eq_or_lt_of_le hai with rfl | hl
  · exact ha
  · exact h.2.2 i hl hij

def ScanSpec (L R : ℕ → Instance State) (a b : ℕ) (earlier rightPending stopped : Bool) :
    Bool × UntilScan → Prop
  | (_, .resolved true) => earlier = true ∧ ∃ k < b, HoldsAt L R a k
  | (_, .resolved false) => rightPending = false ∧ ∃ j < b, FailsAt L a j ∧
      (∀ k, a ≤ k → k ≤ j → (R k).verdict ≠ .pending) ∧
      ∀ k ≤ j, earlier = true → ¬HoldsAt L R a k
  | (stopped', .waiting) => stopped' = true ∧ ∃ j < b, FailsAt L a j ∧
      (rightPending = true ∨ ∃ k, a ≤ k ∧ k ≤ j ∧ (R k).verdict = .pending) ∧
      ∀ k ≤ j, earlier = true → ¬HoldsAt L R a k
  | (stopped', .through) => (∀ i, a ≤ i → i < b → (L i).verdict ≠ .of false) ∧
      (∀ k < b, earlier = true → ¬HoldsAt L R a k) ∧
      (stopped' = true ↔ stopped = true ∨ ∃ k, a ≤ k ∧ k < b ∧ (R k).verdict = .of true)

theorem not_holdsAt_succ (hh : ¬((R a).holds && e) = true)
    (h : (e && (L a).decided) = true → ¬HoldsAt L R (a + 1) k) (he : e = true) :
    ¬HoldsAt L R a k := by
  rintro ⟨hak, hk, hal⟩
  rcases eq_or_lt_of_le hak with rfl | hl
  · simp [holds_eq_true, hk, he] at hh
  · have ha := hal a le_rfl hl
    refine h (by simp [he, decided, ha]) ⟨hl, hk, fun j hj => hal j (by omega)⟩

theorem ScanSpec.cons {result : Bool × UntilScan}
    (hh : ¬((R a).holds && e) = true) (hf : (L a).verdict ≠ .of false)
    (h : ScanSpec L R (a + 1) b (e && (L a).decided) (rightPending || !(R a).decided)
      (stopped || (R a).holds) result) (hab : a < b) :
    ScanSpec L R a b e rightPending stopped result := by
  obtain ⟨s', result⟩ := result
  cases result with
  | resolved holds =>
    cases holds with
    | true =>
      obtain ⟨he, k, hkb, hk⟩ := h
      rw [Bool.and_eq_true] at he
      have ha : (L a).verdict = .of true := by
        rcases Verdict.cases_of (L a).verdict with hno | ⟨v, hv⟩
        · simp [decided, hno] at he
        · cases v with
          | true => exact hv
          | false => exact absurd hv hf
      exact ⟨he.1, k, hkb, holdsAt_succ hk ha⟩
    | false =>
      obtain ⟨hp, j, hjb, hj, hr, hn⟩ := h
      rw [Bool.or_eq_false_iff] at hp
      refine ⟨hp.1, j, hjb, failsAt_succ hj hf, fun k hak hkj => ?_,
        fun k hkj => not_holdsAt_succ hh (hn k hkj)⟩
      rcases eq_or_lt_of_le hak with rfl | hl
      · simpa [decided] using hp.2
      · exact hr k hl hkj
  | waiting =>
    obtain ⟨hs, j, hjb, hj, hp, hn⟩ := h
    refine ⟨hs, j, hjb, failsAt_succ hj hf, ?_, fun k hkj => not_holdsAt_succ hh (hn k hkj)⟩
    rcases hp with hp | ⟨k, hak, hkj, hk⟩
    · rw [Bool.or_eq_true, Bool.not_eq_true', decided_eq_false] at hp
      exact hp.imp_right fun h => ⟨a, le_rfl, by have := hj.1; omega, h⟩
    · exact .inr ⟨k, by omega, hkj, hk⟩
  | through =>
    obtain ⟨hle, hn, hs⟩ := h
    refine ⟨fun i hai hib => ?_, fun k hkb => not_holdsAt_succ hh (hn k hkb), ?_⟩
    · rcases eq_or_lt_of_le hai with rfl | hl
      · exact hf
      · exact hle i hl hib
    · rw [hs, Bool.or_eq_true, or_assoc, holds_eq_true]
      refine or_congr_right ⟨?_, ?_⟩
      · rintro (ha | ⟨k, hak, hk⟩)
        · exact ⟨a, le_rfl, hab, ha⟩
        · exact ⟨k, by omega, hk⟩
      · rintro ⟨k, hak, hk⟩
        rcases eq_or_lt_of_le hak with rfl | hl
        · exact .inl hk.2
        · exact .inr ⟨k, hl, hk⟩

theorem scanUntil_spec : ScanSpec L R a (a + len) e rightPending stopped
    (scanUntil e rightPending stopped (entriesOf L R a len)) := by
  induction len generalizing a e rightPending stopped with
  | zero =>
    refine ⟨fun i hai hi => absurd hi (by omega), fun k hk _ h => absurd h.1 (by omega), ?_⟩
    rw [or_iff_left]
    omega
  | succ len ih =>
    rw [entriesOf_succ, scanUntil]
    split_ifs with hh hf
    · rw [Bool.and_eq_true, holds_eq_true] at hh
      exact ⟨hh.2, a, by omega, le_rfl, hh.1, fun j haj hj => absurd hj (by omega)⟩
    · rw [fails_eq_true] at hf
      have hfa : FailsAt L a a := ⟨le_rfl, hf, fun i hai hia => absurd hia (by omega)⟩
      have hn : ∀ k ≤ a, e = true → ¬HoldsAt L R a k := by
        rintro k hka rfl ⟨ha, hk, -⟩
        obtain rfl : a = k := by omega
        simp [holds_eq_true, hk] at hh
      cases hp : (rightPending || !(R a).decided) with
      | true =>
        rw [Bool.or_eq_true, Bool.not_eq_true', decided_eq_false] at hp
        exact ⟨rfl, a, by omega, hfa, hp.imp_right fun h => ⟨a, le_rfl, le_rfl, h⟩, hn⟩
      | false =>
        rw [Bool.or_eq_false_iff] at hp
        refine ⟨hp.1, a, by omega, hfa, fun k ha hka h => ?_, hn⟩
        obtain rfl : a = k := by omega
        simp [decided, h] at hp
    · rw [fails_eq_true] at hf
      refine ScanSpec.cons hh hf ?_ (by omega)
      rw [← add_assoc, add_right_comm]
      exact ih

theorem entriesOf_dropWhile : ∃ d ≤ len,
    (entriesOf L R a len).dropWhile (fun entry => entry.1.holds && entry.2.fails) =
      entriesOf L R (a + d) (len - d) ∧
    ∀ t, a ≤ t → t < a + d → (L t).verdict = .of true ∧ (R t).verdict = .of false := by
  induction len generalizing a with
  | zero => exact ⟨0, le_rfl, rfl, fun t ha ht => absurd ht (by omega)⟩
  | succ len ih =>
    rw [entriesOf_succ, dropWhile_cons]
    split
    · next hdr =>
      rw [Bool.and_eq_true, holds_eq_true, fails_eq_true] at hdr
      obtain ⟨d, hd, he, hal⟩ := @ih (a + 1)
      refine ⟨d + 1, by omega, ?_, fun t ha ht => ?_⟩
      · rw [he, Nat.add_sub_add_right, Nat.add_assoc, Nat.add_comm 1 d]
      · rcases Nat.eq_or_lt_of_le ha with rfl | hl
        · exact hdr
        · exact hal t hl (by omega)
    · exact ⟨0, Nat.zero_le _, rfl, fun t ha ht => absurd ht (by omega)⟩

/-- No operand before `t` has stopped the `until` by then. -/
def Entered (M : Matcher Program State) (l r : Property Program) (w : ℕ → Sample)
    (s t : ℕ) : Prop :=
  ∀ j, s ≤ j → j < t → ¬Settled M w l false t j ∧ ¬Settled M w r true t j

/-- At the first left operand that failed before tick `m` every right operand up to it is settled,
one of them to true, but each of these comes after a left operand that is still open. -/
def Overtaken (M : Matcher Program State) (l r : Property Program) (w : ℕ → Sample)
    (m s : ℕ) : Prop :=
  ∃ j, s ≤ j ∧ Settled M w l false m j ∧
    (∀ i, s ≤ i → i < j → ¬Settled M w l false m i) ∧
    (∀ k, s ≤ k → k ≤ j → ∃ value, Settled M w r value m k) ∧
    (∃ k, s ≤ k ∧ k ≤ j ∧ Settled M w r true m k) ∧
    ∀ k, s ≤ k → k ≤ j → Settled M w r true m k → ∃ i, s ≤ i ∧ i < k ∧
    ¬Settled M w l true m i

structure UntilShape (M : Matcher Program State) (l r : Property Program) (w : ℕ → Sample)
    (s m a b : ℕ) (i : Instance State) : Prop where
  start : i.start = s
  bounds : s ≤ a ∧ a ≤ b ∧ b ≤ m
  entries : i.entries = entriesOf (fun t => run M l w t m) (fun t => run M r w t m) a (b - a)
  front : ∀ t, s ≤ t → t < a →
    (run M l w t m).verdict = .of true ∧ (run M r w t m).verdict = .of false
  running : i.untilStopped = false → b = m ∧ ∀ t, s ≤ t → t < b →
    (run M l w t m).verdict ≠ .of false ∧ (run M r w t m).verdict ≠ .of true
  stopped : i.untilStopped = true → ∃ t, s ≤ t ∧ t < b ∧
    ((run M l w t m).verdict = .of false ∨ (run M r w t m).verdict = .of true)
  entered : ∀ t, s ≤ t → t < b → Entered M l r w s t

theorem run_verdict_succ {v : Bool} (h : (run M p w t m).verdict = .of v) :
    (run M p w t (m + 1)).verdict = .of v := by rw [run_decided h (le_succ m), h]

theorem UntilShape.stepped (h : UntilShape M l r w s m a b i) :
    ((if i.untilStopped then i.entries else i.entries ++ [(fresh m, fresh m)]).map fun entry =>
      (step M m (w m) l entry.1, step M m (w m) r entry.2)) =
    entriesOf (fun t => run M l w t (m + 1)) (fun t => run M r w t (m + 1)) a
      ((if i.untilStopped then b else m + 1) - a) := by
  have hm : ∀ len, (entriesOf (fun t => run M l w t m) (fun t => run M r w t m) a len).map
      (fun entry => (step M m (w m) l entry.1, step M m (w m) r entry.2)) =
      entriesOf (fun t => run M l w t (m + 1)) (fun t => run M r w t (m + 1)) a len := by
    intro len
    rw [entriesOf, map_map]
    rfl
  cases hs : i.untilStopped with
  | true => rw [if_pos rfl, if_pos rfl, h.entries, hm]
  | false =>
    obtain ⟨rfl, -⟩ := h.running hs
    have ha := h.bounds.2.1
    rw [if_neg Bool.false_ne_true, if_neg Bool.false_ne_true, h.entries, ← hm,
      show b + 1 - a = b - a + 1 by omega]
    simp only [entriesOf, range'_concat, map_append, map_cons, map_nil]
    rw [one_mul, show a + (b - a) = b by omega, run_of_le le_rfl, run_of_le le_rfl]

structure Stepped (M : Matcher Program State) (l r : Property Program) (w : ℕ → Sample)
    (s m a b : ℕ) (stopped : Bool) : Prop where
  bounds : s ≤ a ∧ a ≤ b ∧ b ≤ m
  front : ∀ t, s ≤ t → t < a →
    (run M l w t m).verdict = .of true ∧ (run M r w t m).verdict = .of false
  running : stopped = false → b = m
  stopped : stopped = true → ∃ t, s ≤ t ∧ t < b ∧
    ((run M l w t m).verdict = .of false ∨ (run M r w t m).verdict = .of true)
  entered : ∀ t, s ≤ t → t < b → Entered M l r w s t
  agrees : ∀ t, s ≤ t → t < b → Agrees M l w t m ∧ Agrees M r w t m

theorem UntilShape.toStepped (h : UntilShape M l r w s m a b i)
    (ha : ∀ m' ≤ m + 1, ∀ t, s ≤ t → t < m' → Entered M l r w s t →
      Agrees M l w t m' ∧ Agrees M r w t m') :
    Stepped M l r w s (m + 1) a (if i.untilStopped then b else m + 1) i.untilStopped := by
  have he : ∀ t, s ≤ t → t < (if i.untilStopped then b else m + 1) →
      Entered M l r w s t := by
    intro t hst ht
    cases hs : i.untilStopped with
    | true => exact h.entered t hst (by simpa [hs] using ht)
    | false =>
      obtain ⟨rfl, ho⟩ := h.running hs
      simp only [hs] at ht
      rcases Nat.lt_succ_iff_lt_or_eq.mp ht with hlt | rfl
      · exact h.entered t hst hlt
      · intro j hsj hj
        obtain ⟨hl, hr⟩ := ha t (Nat.le_succ t) j hsj hj (h.entered j hsj hj)
        exact ⟨fun hse => (ho j hsj hj).1 ((hl _).mpr hse),
          fun hse => (ho j hsj hj).2 ((hr _).mpr hse)⟩
  obtain ⟨hsa, hab, hb⟩ := h.bounds
  have hle : (if i.untilStopped then b else m + 1) ≤ m + 1 := by split <;> omega
  refine ⟨⟨hsa, by split <;> omega, hle⟩, fun t hst hta => ?_, fun hs => ?_,
    fun hs => ?_, he, fun t hst ht =>
      ha (m + 1) le_rfl t hst (ht.trans_le hle) (he t hst ht)⟩
  · exact (h.front t hst hta).imp run_verdict_succ run_verdict_succ
  · rw [hs, if_neg Bool.false_ne_true]
  · obtain ⟨t, hst, htb, ht⟩ := h.stopped hs
    rw [hs]
    exact ⟨t, hst, htb, ht.imp run_verdict_succ run_verdict_succ⟩

namespace Stepped

variable {strong : Bool} {b j k : ℕ} (h : Stepped M l r w s m a b stopped)

include h

theorem left_of_lt (hs : s ≤ t) (ht : t < b) :
    (run M l w t m).verdict = .of value ↔ Settled M w l value m t :=
  (h.agrees t hs ht).1 value

theorem right_of_lt (hs : s ≤ t) (ht : t < b) :
    (run M r w t m).verdict = .of value ↔ Settled M w r value m t :=
  (h.agrees t hs ht).2 value

theorem holdsAt_front : HoldsAt (run M l w · m) (run M r w · m) a k ↔
    HoldsAt (run M l w · m) (run M r w · m) s k := by
  have hs := h.bounds.1
  constructor
  · rintro ⟨hak, hk, ha⟩
    refine ⟨hs.trans hak, hk, fun j hsj hj => ?_⟩
    rcases lt_or_ge j a with hja | haj
    · exact (h.front j hsj hja).1
    · exact ha j haj hj
  · rintro ⟨hsk, hk, ha⟩
    refine ⟨?_, hk, fun j haj => ha j (hs.trans haj)⟩
    by_contra hka
    have := (h.front k hsk (not_le.mp hka)).2
    rw [hk] at this
    exact absurd this (by decide)

theorem failsAt_front (hj : FailsAt (run M l w · m) a j) : FailsAt (run M l w · m) s j := by
  refine ⟨h.bounds.1.trans hj.1, hj.2.1, fun i hs hij => ?_⟩
  rcases lt_or_ge i a with hia | ha
  · simp only [(h.front i hs hia).1]
    decide
  · exact hj.2.2 i ha hij

theorem settled_true (hkb : k < b) (hk : HoldsAt (run M l w · m) (run M r w · m) a k) :
    Settled M w (.until strong l r) true m s := by
  obtain ⟨hs, hr, ha⟩ := h.holdsAt_front.mp hk
  exact ⟨k, hs, (h.right_of_lt hs hkb).mp hr, fun j hsj hj =>
    (h.left_of_lt hsj (hj.trans hkb)).mp (ha j hsj hj)⟩

theorem settled_false (hjb : j < b) (hj : FailsAt (run M l w · m) a j)
    (hd : ∀ k, a ≤ k → k ≤ j → (run M r w k m).verdict ≠ .pending)
    (hn : ∀ k ≤ j, ¬HoldsAt (run M l w · m) (run M r w · m) a k)
    (hc : ¬Overtaken M l r w m s) : Settled M w (.until strong l r) false m s := by
  obtain ⟨hsj, hl, hf⟩ := h.failsAt_front hj
  have hs : ∀ k, s ≤ k → k ≤ j → ∃ value, Settled M w r value m k := by
    intro k hsk hk
    have hp : (run M r w k m).verdict ≠ .pending := by
      rcases lt_or_ge k a with hka | hak
      · rw [(h.front k hsk hka).2]
        exact Verdict.of_ne_pending false
      · exact hd k hak hk
    obtain ⟨value, hv⟩ := (Verdict.cases_of _).resolve_left hp
    exact ⟨value, (h.right_of_lt hsk (hk.trans_lt hjb)).mp hv⟩
  refine ⟨j, hsj, (h.left_of_lt hsj hjb).mp hl, fun k hsk hk => ?_⟩
  obtain ⟨value, hv⟩ := hs k hsk hk
  cases value with
  | false => exact hv
  | true =>
    refine absurd ⟨j, hsj, (h.left_of_lt hsj hjb).mp hl, fun i hsi hij hi => ?_, hs,
      ⟨k, hsk, hk, hv⟩, fun k' hs' hk'j hk' => ?_⟩ hc
    · exact hf i hsi hij ((h.left_of_lt hsi (hij.trans hjb)).mpr hi)
    · by_contra ha
      simp only [not_exists, not_and, not_not] at ha
      refine hn k' hk'j (h.holdsAt_front.mpr ⟨hs', ?_, fun i hsi hik => ?_⟩)
      · exact (h.right_of_lt hs' (hk'j.trans_lt hjb)).mpr hk'
      · exact (h.left_of_lt hsi (by omega)).mpr (ha i hsi hik)

theorem not_settled_true (hn : ∀ k < b, ¬HoldsAt (run M l w · m) (run M r w · m) a k) :
    ¬Settled M w (.until strong l r) true m s := by
  have he : ∀ k < b, s ≤ k → Settled M w r true m k →
      ¬∀ j, s ≤ j → j < k → Settled M w l true m j := fun k hkb hs hk ha =>
    hn k hkb (h.holdsAt_front.mpr ⟨hs, (h.right_of_lt hs hkb).mpr hk, fun j hsj hj =>
      (h.left_of_lt hsj (hj.trans hkb)).mpr (ha j hsj hj)⟩)
  rintro ⟨k, hs, hk, ha⟩
  rcases lt_or_ge k b with hkb | hb
  · exact he k hkb hs hk ha
  · -- An entry stopped the `until` before `k`.
    cases stopped with
    | false => exact absurd hk.lt (by have := h.running rfl; omega)
    | true =>
      obtain ⟨t, hst, ht, hl | hr⟩ := h.stopped rfl
      · have hf := (h.left_of_lt hst ht).mp hl
        exact Bool.false_ne_true (hf.unique (ha t hst (by omega)))
      · exact he t ht hst ((h.right_of_lt hst ht).mp hr) fun j hsj hjt =>
          ha j hsj (by omega)

theorem settled_false_entry (hse : Settled M w (.until strong l r) false m s) :
    ∃ j, s ≤ j ∧ j < b ∧ (run M l w j m).verdict = .of false ∧
      ∀ k, s ≤ k → k ≤ j → (run M r w k m).verdict = .of false := by
  obtain ⟨j, hsj, hj, ha⟩ := hse
  have hr : ∀ k, s ≤ k → k ≤ j → k < b → (run M r w k m).verdict = .of false :=
    fun k hs hk hkb => (h.right_of_lt hs hkb).mpr (ha k hs hk)
  rcases lt_or_ge j b with hjb | hb
  · exact ⟨j, hsj, hjb, (h.left_of_lt hsj hjb).mpr hj, fun k hs hk => hr k hs hk (by omega)⟩
  · cases stopped with
    | false => exact absurd hj.lt (by have := h.running rfl; omega)
    | true =>
      obtain ⟨t, hst, ht, hl | hh⟩ := h.stopped rfl
      · exact ⟨t, hst, ht, hl, fun k hs hkt => hr k hs (by omega) (by omega)⟩
      · have := (hr t hst (by omega) ht).symm.trans hh
        exact absurd (Verdict.of_inj.mp this) (by decide)

end Stepped

theorem Agrees.until_ {strong : Bool}
      (hag : ∀ m ≤ n, ∀ t, s ≤ t → t < m → Entered M l r w s t →
      Agrees M l w t m ∧ Agrees M r w t m)
    (hc : ∀ m ≤ n, ¬Overtaken M l r w m s) : Agrees M (.until strong l r) w s n := by
  refine agrees_of_shape (fun m i => ∃ a b, UntilShape M l r w s m a b i) ?_ ?_
  · exact ⟨s, s, rfl, ⟨le_rfl, le_rfl, le_rfl⟩, by simp [entriesOf, fresh],
      fun t hst hts => absurd hts (by omega),
      fun _ => ⟨rfl, fun t hst hts => absurd hts (by omega)⟩,
      nofun, fun t hst hts => absurd hts (by omega)⟩
  · rintro m hsm hm i hp ⟨a, b, hsh⟩
    have hsta := hsh.start
    have hs := hsh.toStepped fun m' hm' => hag m' (by omega)
    rw [step, unlessIdle_active hp (hsta ▸ hsm)]
    simp only [stepUntil, hsh.stepped]
    generalize (if i.untilStopped = true then b else m + 1) = b' at hs
    have hab := hs.bounds.2.1
    have hscan :=
      @scanUntil_spec _ (run M l w · (m + 1)) (run M r w · (m + 1)) a (b' - a) true false
      i.untilStopped
    rw [show a + (b' - a) = b' by omega] at hscan
    generalize scanUntil true false i.untilStopped _ = result at hscan
    obtain ⟨s', result⟩ := result
    cases result with
    | resolved holds =>
      refine ⟨?_, fun h => absurd h (by simp)⟩
      cases holds with
      | true =>
        obtain ⟨-, k, hkb, hk⟩ := hscan
        exact (hs.settled_true hkb hk).of_iff
      | false =>
        obtain ⟨-, j, hjb, hj, hde, hn⟩ := hscan
        exact (hs.settled_false hjb hj hde (fun k hkj => hn k hkj rfl) (hc (m + 1) hm)).of_iff
    | waiting =>
      obtain ⟨rfl, j, hjb, hj, hw, hn⟩ := hscan
      obtain ⟨k, hak, hkj, hk⟩ := hw.resolve_left Bool.false_ne_true
      obtain ⟨hsj, hl, hfi⟩ := hs.failsAt_front hj
      have hsk : s ≤ k := hs.bounds.1.trans hak
      have ht : ¬Settled M w (.until strong l r) true (m + 1) s := by
        refine hs.not_settled_true fun k' _ hk' => ?_
        rcases lt_or_ge j k' with hjk | hkj'
        · have := hl.symm.trans (hk'.2.2 j hj.1 hjk)
          exact absurd (Verdict.of_inj.mp this) (by decide)
        · exact hn k' hkj' rfl hk'
      have hf : ¬Settled M w (.until strong l r) (!true) (m + 1) s := by
        intro hse
        obtain ⟨j', hs', -, hl', hri⟩ := hs.settled_false_entry hse
        rcases lt_or_ge j' j with hlt | hle
        · exact hfi j' hs' hlt hl'
        · exact Verdict.of_ne_pending false ((hri k hsk (by omega)).symm.trans hk)
      refine ⟨fun value => iff_of_false ?_ (not_settled ht hf value), fun _ =>
        ⟨a, b', hsta, hs.bounds, rfl, hs.front, nofun, fun _ =>
          ⟨j, hsj, hjb, .inl hl⟩, hs.entered⟩⟩
      simp [hp, (Verdict.of_ne_pending value).symm]
    | through =>
      obtain ⟨hl, hn, hsto⟩ := hscan
      have hfr : ∀ t, s ≤ t → t < b' → (run M l w t (m + 1)).verdict ≠ .of false := by
        intro t hst htb
        rcases lt_or_ge t a with hta | ha
        · rw [(hs.front t hst hta).1, ne_eq]
          decide
        · exact hl t ha htb
      have ht : ¬Settled M w (.until strong l r) true (m + 1) s :=
        hs.not_settled_true fun k hkb => hn k hkb rfl
      have hf : ¬Settled M w (.until strong l r) (!true) (m + 1) s := by
        intro hse
        obtain ⟨j, hsj, hjb, hj, -⟩ := hs.settled_false_entry hse
        exact hfr j hsj hjb hj
      refine ⟨fun value => iff_of_false ?_ (not_settled ht hf value), fun _ => ?_⟩
      · simp [hp, (Verdict.of_ne_pending value).symm]
      · obtain ⟨d, hd, hdro, hdr⟩ := @entriesOf_dropWhile _ (run M l w · (m + 1))
          (run M r w · (m + 1)) a (b' - a)
        obtain ⟨hsa, -, hbm⟩ := hs.bounds
        refine ⟨a + d, b', hsta, ⟨by omega, by omega, hbm⟩, ?_, fun t hst hta => ?_,
          fun hr => ⟨hs.running ?_, fun t hst htb => ⟨hfr t hst htb, ?_⟩⟩,
          fun hstop => ?_, hs.entered⟩
        · rw [sub_add_eq]
          exact hdro
        · rcases lt_or_ge t a with hlt | ha
          · exact hs.front t hst hlt
          · exact hdr t ha hta
        · by_contra hne
          exact Bool.false_ne_true (hr.symm.trans (hsto.mpr (.inl (Bool.not_eq_false _ ▸ hne))))
        · rcases lt_or_ge t a with hlt | ha
          · rw [(hs.front t hst hlt).2, ne_eq]
            decide
          · exact fun hh => Bool.false_ne_true (hr.symm.trans
              (hsto.mpr (.inr ⟨t, ha, htb, hh⟩)))
        · rcases hsto.mp hstop with hb | ⟨k, hak, hkb, hk⟩
          · exact hs.stopped hb
          · exact ⟨k, hsa.trans hak, hkb, .inr hk⟩

end Until

/-- No `until` that the attempt at `s` starts overtakes a right operand before tick `n`. -/
def Clear (M : Matcher Program State) (w : ℕ → Sample) : Property Program →
    (n s : ℕ) → Prop
  | .sequence .., _, _ => True
  | .negation p, n, s => Clear M w p n s
  | .connective _ l r, n, s => Clear M w l n s ∧ Clear M w r n s
  | .consequents _ overlapped antecedent p, n, s =>
    ∀ e < n, M.Matched antecedent w s e → Clear M w p n (next overlapped e)
  | .conditional guard p q, n, s =>
    s < n → if w s guard then Clear M w p n s else Clear M w q n s
  | .conditionalAlone guard p, n, s => s < n → w s guard = true → Clear M w p n s
  | .nexttime lo p, n, s => Clear M w p n (s + lo)
  | .window _ lo hi p, n, s => ∀ t < n, InWindow lo hi s t → Clear M w p n t
  | .until _ l r, n, s =>
    (∀ t < n, s ≤ t → Entered M l r w s t → Clear M w l n t ∧ Clear M w r n t) ∧
      ∀ m ≤ n, ¬Overtaken M l r w m s
  | .abort _ guard p, n, s =>
    ∀ m ≤ n, (∀ i < m, s ≤ i → w i guard = false) → Clear M w p m s
  | .vacuous, _, _ => True

theorem Clear.mono (h : Clear M w p n s) (hm : m ≤ n) : Clear M w p m s := by
  induction p generalizing n m s with
  | sequence | vacuous => trivial
  | negation p ih | nexttime lo p ih => exact ih h hm
  | connective kind l r ihl ihr => exact ⟨ihl h.1 hm, ihr h.2 hm⟩
  | consequents early o antecedent p ih =>
    exact fun e he hma => ih (h e (he.trans_le hm) hma) hm
  | conditional g p q ihp ihq =>
    intro hs
    have h := h (hs.trans_le hm)
    split_ifs at h ⊢
    · exact ihp h hm
    · exact ihq h hm
  | conditionalAlone g p ih => exact fun hs hg => ih (h (hs.trans_le hm) hg) hm
  | window early lo hi p ih => exact fun t htm ht => ih (h t (htm.trans_le hm) ht) hm
  | «until» strong l r ihl ihr =>
    refine ⟨fun t htm hst hen => ?_, fun m' hm' => h.2 m' (hm'.trans hm)⟩
    obtain ⟨hl, hr⟩ := h.1 t (htm.trans_le hm) hst hen
    exact ⟨ihl hl hm, ihr hr hm⟩
  | abort early g p => exact fun m' hm' => h m' (hm'.trans hm)

theorem Clear.agrees (h : Clear M w p n s) : Agrees M p w s n := by
  induction p generalizing n s with
  | sequence => exact .sequence
  | negation p ih => exact .negation fun m hm => ih (Clear.mono h hm)
  | connective kind l r ihl ihr =>
    exact .connective (fun m hm => ihl (h.1.mono hm)) fun m hm => ihr (h.2.mono hm)
  | consequents early o antecedent p ih =>
    exact .consequents fun m hm e he hma => ih ((h e (he.trans_le hm) hma).mono hm)
  | conditional g p q ihp ihq =>
    rcases lt_or_ge s n with hs | hn
    · have h := h hs
      refine .conditional (fun hg m hm => ?_) fun hg m hm => ?_
      · rw [if_pos hg] at h
        exact ihp (h.mono hm)
      · rw [if_neg (by simp [hg])] at h
        exact ihq (h.mono hm)
    · exact agrees_of_le hn
  | conditionalAlone g p ih =>
    rcases lt_or_ge s n with hs | hn
    · exact .conditionalAlone fun hg m hm => ih ((h hs hg).mono hm)
    · exact agrees_of_le hn
  | nexttime lo p ih => exact .nexttime fun m hm => ih (Clear.mono h hm)
  | window early lo hi p ih =>
    exact .window fun m hm t htm ht => ih ((h t (htm.trans_le hm) ht).mono hm)
  | «until» strong l r ihl ihr =>
    refine .until_ (fun m hm t hst htm hen => ?_) h.2
    obtain ⟨hl, hr⟩ := h.1 t (htm.trans_le hm) hst hen
    exact ⟨ihl (hl.mono hm), ihr (hr.mono hm)⟩
  | abort early g p ih => exact .abort fun m hm hq => ih (h m hm hq)
  | vacuous => exact .vacuous

/-- A verdict of an attempt holds for every infinite continuation of the trace so far. -/
theorem verdict_sound (M : Matcher Program State) (p : Property Program) (w : ℕ → Sample)
    (s n : ℕ) (hclear : Clear M w p n s) (w' : ℕ → Sample) (hagree : ∀ i < n, w i = w' i) :
    ((run M p w s n).verdict = .holds → Sat M w' p s) ∧
      ((run M p w s n).verdict = .fails → ¬Sat M w' p s) := by
  have hsat : ∀ value, (run M p w s n).verdict = .of value → (Sat M w' p s ↔ value = true) :=
    fun value hvalue => ((settled_congr hagree).mp ((hclear.agrees value).mp hvalue)).sat
  exact ⟨fun h => (hsat true h).mpr rfl, fun h => mt (hsat false h).mp Bool.false_ne_true⟩

def delayedCheck : Sequence :=
  ⟨[⟨.check, 0, 0, 0, 0, some 0⟩, ⟨.delay, 0, 0, 0, 2, some 2⟩,
    ⟨.check, 1, 0, 0, 0, some 0⟩, ⟨.match, 0, 0, 0, 0, some 0⟩], 0⟩

def delayedUntil : Property Sequence :=
  .until false (.sequence false delayedCheck)
    (.sequence false ⟨[⟨.check, 2, 0, 0, 0, some 0⟩, ⟨.match, 0, 0, 0, 0, some 0⟩], 0⟩)

def overtakingTrace : ℕ → Sample :=
  fun tick guard => [(0, 0), (1, 2), (2, 1)].contains (tick, guard)

/-- The attempt at tick 0 fails at tick 1, where `b` holds and `c ##2 a` from tick 0 is open. -/
theorem delayedUntil_overtaken :
    (run (matcher 100) delayedUntil overtakingTrace 0 2).verdict = .fails ∧
      Sat (matcher 100) overtakingTrace delayedUntil 0 := by
  refine ⟨by decide +kernel,
    .inl ⟨1, by decide, .inl ⟨1, le_rfl, by decide +kernel⟩, ?_⟩⟩
  intro j _ hj
  obtain rfl : j = 0 := by omega
  exact .inl ⟨2, by decide, by decide +kernel⟩

/-- `b` holds at tick 2, and the left operands before it match at ticks 2 and 3. -/
def settlingTrace : ℕ → Sample := fun tick guard =>
  guard = 0 || guard = 1 && 2 ≤ tick || guard = 2 && tick = 2

theorem delayedUntil_sound : Clear (matcher 100) settlingTrace delayedUntil 4 0 ∧
    (run (matcher 100) delayedUntil settlingTrace 0 3).verdict = .pending ∧
    (run (matcher 100) delayedUntil settlingTrace 0 4).verdict = .holds ∧
    ∀ w', (∀ i < 4, settlingTrace i = w' i) → Sat (matcher 100) w' delayedUntil 0 := by
  have hclear : Clear (matcher 100) settlingTrace delayedUntil 4 0 := by
    refine ⟨fun _ _ _ _ => ⟨trivial, trivial⟩, ?_⟩
    rintro m hm ⟨j, -, hfails, -⟩
    have hj : j < 4 := hfails.lt.trans_le hm
    have hmatched : (matcher 100).Matched delayedCheck settlingTrace j (j + 2) := by
      refine ⟨by omega, ?_⟩
      interval_cases j <;> decide +kernel
    have hholds : Settled (matcher 100) settlingTrace (.sequence false delayedCheck) true 6 j :=
      ⟨j + 2, by omega, hmatched⟩
    exact Bool.false_ne_true (hfails.unique hholds)
  have hholds : (run (matcher 100) delayedUntil settlingTrace 0 4).verdict = .holds := by
    decide +kernel
  exact ⟨hclear, by decide +kernel, hholds,
    fun w' hagree => (verdict_sound _ _ _ _ _ hclear w' hagree).1 hholds⟩

end FsimRuntime.Sva

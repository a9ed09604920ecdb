import FsimRuntime.PackedConstruction

/-!
# Sequences of packed operations

Variables that hold packed values, and the operations of `PackedLogic4` on
them in any order. A refused operation throws before it changes anything. The
run of the words and the run of the states agree step by step. Each variable
has words of its own: that copies share wide storage until one of them is
written, and the detaching of pinned snapshots, are left out.
-/

namespace FsimRuntime.Packed
open BitWords PackedLogic4

inductive Operation
  | construct (target width : ℕ) (initial : Logic4)
  | fromMsbString (target : ℕ) (value : String)
  | fromLogic9MsbString (target : ℕ) (value : String)
  | fromAvalBval (target width : ℕ) (aval bval : Word)
  | fromWordPlanes (target width : ℕ) (aval bval : List Word)
  | fromLogic9WordPlanes (target width : ℕ) (planes : Fin 4 → List Word)
  | fromLogic9Word (target : ℕ) (value : Logic9Word)
  | set (target index : ℕ) (value : Logic4)
  | setLogic9 (target index : ℕ) (value : UInt8)
  | fill (target : ℕ) (value : Logic4)
  | fillLogic9 (target : ℕ) (value : UInt8)
  | insertWord (target : ℕ) (source : Logic4Word) (offset : ℕ)
  | insertMaskedWord (target : ℕ) (source : Logic4Word) (mask : Word) (offset : ℕ)
  | insertBits (target source offset : ℕ)
  | extractBits (target source offset width : ℕ)
  | assignWord (target : ℕ) (source : Logic4Word)
  | assignLogic9Word (target : ℕ) (source : Logic9Word)
  | insertMaskedLogic9Word (target : ℕ) (source : Logic9Word) (mask : Word)
  | promotedToLogic9 (target source : ℕ)

namespace Operation

def target : Operation → ℕ
  | construct target .. | fromMsbString target .. | fromLogic9MsbString target ..
  | fromAvalBval target .. | fromWordPlanes target .. | fromLogic9WordPlanes target ..
  | fromLogic9Word target .. | set target .. | setLogic9 target .. | fill target ..
  | fillLogic9 target .. | insertWord target .. | insertMaskedWord target ..
  | insertBits target .. | extractBits target .. | assignWord target ..
  | assignLogic9Word target .. | insertMaskedLogic9Word target .. | promotedToLogic9 target .. =>
    target

def result (values : ℕ → PackedLogic4) : Operation → Except Error PackedLogic4
  | construct _ width initial => ofWidth width initial
  | fromMsbString _ value => PackedLogic4.fromMsbString value
  | fromLogic9MsbString _ value => PackedLogic4.fromLogic9MsbString value
  | fromAvalBval _ width aval bval => PackedLogic4.fromAvalBval width aval bval
  | fromWordPlanes _ width aval bval => PackedLogic4.fromWordPlanes width aval bval
  | fromLogic9WordPlanes _ width planes => PackedLogic4.fromLogic9WordPlanes width planes
  | fromLogic9Word _ value => PackedLogic4.fromLogic9Word value
  | set target index value => (values target).set index value
  | setLogic9 target index value => (values target).setLogic9 index value
  | fill target value => .ok ((values target).fill value)
  | fillLogic9 target value => .ok ((values target).fillLogic9 value)
  | insertWord target source offset => (values target).insertWord source offset
  | insertMaskedWord target source mask offset =>
    (values target).insertMaskedWord source mask offset
  | insertBits target source offset => (values target).insertBits (values source) offset
  | extractBits _ source offset width => (values source).extractBits offset width
  | assignWord target source => (values target).assignWord source
  | assignLogic9Word target source => (values target).assignLogic9Word source
  | insertMaskedLogic9Word target source mask => (values target).insertMaskedLogic9Word source mask
  | promotedToLogic9 _ source => .ok (values source).promoteToLogic9

def described (values : ℕ → Bits) : Operation → Except Error Bits
  | construct _ width initial => Bits.ofWidth width initial
  | fromMsbString _ value => Bits.fromMsbString value
  | fromLogic9MsbString _ value => Bits.fromLogic9MsbString value
  | fromAvalBval _ width aval bval => Bits.fromAvalBval width aval bval
  | fromWordPlanes _ width aval bval => Bits.fromWordPlanes width aval bval
  | fromLogic9WordPlanes _ width planes => Bits.fromLogic9WordPlanes width planes
  | fromLogic9Word _ value => Bits.fromLogic9Word value
  | set target index value => (values target).set index value
  | setLogic9 target index value => (values target).setLogic9 index value
  | fill target value => .ok ((values target).fill value)
  | fillLogic9 target value => .ok ((values target).fillLogic9 value)
  | insertWord target source offset => (values target).insertWord source offset
  | insertMaskedWord target source mask offset =>
    (values target).insertMaskedWord source mask offset
  | insertBits target source offset => (values target).insertBits (values source) offset
  | extractBits _ source offset width => (values source).extractBits offset width
  | assignWord target source => (values target).assignWord source
  | assignLogic9Word target source => (values target).assignLogic9Word source
  | insertMaskedLogic9Word target source mask => (values target).insertMaskedLogic9Word source mask
  | promotedToLogic9 _ source => .ok (values source).promote

end Operation

section Runs

variable {α : Type}

def perform (eval : (ℕ → α) → Operation → Except Error α) (values : ℕ → α)
    (op : Operation) : Option Error × (ℕ → α) :=
  match eval values op with
  | .ok value => (none, Function.update values op.target value)
  | .error error => (some error, values)

def run (eval : (ℕ → α) → Operation → Except Error α) :
    List Operation → (ℕ → α) → List (Option Error) × (ℕ → α)
  | [], values => ([], values)
  | op :: ops, values =>
    let (error, values) := perform eval values op
    let (errors, values) := run eval ops values
    (error :: errors, values)

end Runs

def fresh : ℕ → PackedLogic4 := fun _ => blank 0

variable {v u : PackedLogic4} {values : ℕ → PackedLogic4}

theorem promote_refines (h : v.Valid) : Refines (.ok v.promoteToLogic9) (.ok v.view.promote) := by
  obtain ⟨hw, h9⟩ := h.promote
  have := h9.refines
  rwa [hw, ← view_states9] at this

theorem Operation.result_refines (h : ∀ n, (values n).Valid)
    (op : Operation) : Refines (op.result values) (op.described fun n => (values n).view) := by
  cases op with
  | construct target width initial => exact ofWidth_refines width initial
  | fromMsbString target value => exact fromMsbString_refines value
  | fromLogic9MsbString target value => exact fromLogic9MsbString_refines value
  | fromAvalBval target width aval bval => exact fromAvalBval_refines width aval bval
  | fromWordPlanes target width aval bval => exact fromWordPlanes_refines width aval bval
  | fromLogic9WordPlanes target width p => exact fromLogic9WordPlanes_refines width p
  | fromLogic9Word target value => exact fromLogic9Word_refines value
  | set target index value => exact (h target).set index value
  | setLogic9 target index value => exact (h target).setLogic9 index value
  | fill target value => exact (h target).fill value
  | fillLogic9 target value => exact (h target).fillLogic9 value
  | insertWord target s o => exact (h target).insertWord s o
  | insertMaskedWord target s m o => exact (h target).insertMaskedWord s m o
  | insertBits target s o => exact (h target).insertBits (h s) o
  | extractBits target s o width => exact (h s).extractBits o width
  | assignWord target s => exact (h target).assignWord s
  | assignLogic9Word target s => exact (h target).assignLogic9Word s
  | insertMaskedLogic9Word target s m => exact (h target).insertMaskedLogic9Word s m
  | promotedToLogic9 target s => exact promote_refines (h s)

theorem perform_refines (h : ∀ n, (values n).Valid) (op : Operation) :
    (∀ n, ((perform Operation.result values op).2 n).Valid) ∧
      perform Operation.described (fun n => (values n).view) op =
        ((perform Operation.result values op).1,
          fun n => ((perform Operation.result values op).2 n).view) := by
  have ho := op.result_refines h
  unfold perform
  cases hr : op.result values with
  | error error =>
    cases hd : op.described fun n => (values n).view with
    | ok bits => simp [hr, hd, Refines] at ho
    | error e' =>
      obtain rfl : error = e' := by simpa [hr, hd, Refines] using ho
      exact ⟨h, rfl⟩
  | ok value =>
    cases hd : op.described fun n => (values n).view with
    | error error => simp [hr, hd, Refines] at ho
    | ok bits =>
      obtain ⟨hv, hvi⟩ : value.Valid ∧ value.view = bits := by
        simpa [hr, hd, Refines] using ho
      refine ⟨fun n => ?_, Prod.ext rfl (funext fun n => ?_)⟩
      · by_cases hn : n = op.target
        · subst hn
          simpa using hv
        · simpa [hn] using h n
      · by_cases hn : n = op.target
        · subst hn
          simpa using hvi.symm
        · simp [hn]

theorem run_refines (ops : List Operation) (h : ∀ n, (values n).Valid) :
    (∀ n, ((run Operation.result ops values).2 n).Valid) ∧
      run Operation.described ops (fun n => (values n).view) = ((run Operation.result ops values).1,
          fun n => ((run Operation.result ops values).2 n).view) := by
  induction ops generalizing values with
  | nil => exact ⟨h, rfl⟩
  | cons op ops ih =>
    obtain ⟨hv, hp⟩ := perform_refines h op
    obtain ⟨hr, hru⟩ := ih hv
    refine ⟨hr, ?_⟩
    simp [run, hp, hru]

def SameStates (v u : PackedLogic4) : Prop :=
  v.width = u.width ∧ v.isLogic9 = u.isLogic9 ∧
    ∀ i < v.width, v.get i = u.get i ∧ v.getLogic9 i = u.getLogic9 i

theorem get_eq {i : ℕ} (h : i < v.width) :
    v.get i = .ok (if v.isLogic9 then toLogic4 (v.readLogic9 i) else v.readLogic4 i) ∧
      v.getLogic9 i = .ok (if v.isLogic9 then v.readLogic9 i else toLogic9 (v.readLogic4 i)) := by
  rw [PackedLogic4.get, PackedLogic4.getLogic9, checkIndex_ok.mpr h]
  exact ⟨rfl, rfl⟩

theorem sameStates_of_planes (hw : v.width = u.width) (hd : v.isLogic9 = u.isLogic9)
    (hp : ∀ plane < v.planeCount, v.planeWords plane = u.planeWords plane) : SameStates v u := by
  refine ⟨hw, hd, fun i hi => ?_⟩
  rw [(get_eq hi).1, (get_eq hi).2, (get_eq (hw ▸ hi)).1, (get_eq (hw ▸ hi)).2, ← hd]
  cases hlogic9 : v.isLogic9 with
  | false =>
    have hc : v.planeCount = 2 := by simp [planeCount, hlogic9]
    simp [readLogic4, hp 0 (by omega), hp 1 (by omega)]
  | true =>
    have hc : v.planeCount = 4 := by simp [planeCount, hlogic9]
    simp [readLogic9, hp 0 (by omega), hp 1 (by omega), hp 2 (by omega), hp 3 (by omega)]

theorem planes_eq {p : ℕ → ℕ → Bool} (hv : v.Holds p)
    (hu : u.Holds p) (hw : v.width = u.width) (hd : v.isLogic9 = u.isLogic9)
    {plane : ℕ} (hp : plane < v.planeCount) : v.planeWords plane = u.planeWords plane := by
  have hp' : plane < u.planeCount := by rwa [planeCount, ← hd]
  refine ext_bits ?_ fun i => ?_
  · rw [planeWords_length hv.shaped hp, planeWords_length hu.shaped hp', hw]
  · rw [hv.bits plane hp i, hu.bits plane hp' i, hw]

theorem holds_of_read {p new : ℕ → ℕ → Bool} (h : v.Holds p)
    (hr : ∀ plane, ∀ i < v.width, p plane i = new plane i) : v.Holds new where
  shaped := h.shaped
  bounded := h.bounded
  bits plane hp i := by
    rw [h.bits plane hp i]
    by_cases hi : i < v.width
    · rw [hr plane i hi]
    · simp [hi]

theorem equal_iff_sameStates (hv : v.Valid) (hu : u.Valid) : v.equal u = true ↔
    SameStates v u := by
  simp only [PackedLogic4.equal, Bool.and_eq_true, decide_eq_true_eq, List.all_eq_true,
    List.mem_range, and_assoc]
  refine ⟨fun h => sameStates_of_planes h.1 h.2.1 h.2.2,
    fun h => ⟨h.1, h.2.1, fun plane hp => ?_⟩⟩
  obtain ⟨hw, hd, hs⟩ := h
  cases hlogic9 : v.isLogic9 with
  | false =>
    have hlogic9' : u.isLogic9 = false := hd ▸ hlogic9
    refine planes_eq (hv.holds4 hlogic9).2
      (holds_of_read (hu.holds4 hlogic9').2 fun plane i hi => ?_) hw hd hp
    have hg := (hs i (by omega)).1
    rw [(get_eq (by omega)).1, (get_eq hi).1, hlogic9, hlogic9'] at hg
    simp only [Bool.false_eq_true, if_false, Except.ok.injEq] at hg
    rw [hg]
  | true =>
    have hlogic9' : u.isLogic9 = true := hd ▸ hlogic9
    refine planes_eq (hv.holds9 hlogic9).2
      (holds_of_read (hu.holds9 hlogic9').2 fun plane i hi => ?_) hw hd hp
    have hg := (hs i (by omega)).2
    rw [(get_eq (by omega)).2, (get_eq hi).2, hlogic9, hlogic9'] at hg
    simp only [if_true, Except.ok.injEq] at hg
    rw [hg]

theorem fresh_valid (n : ℕ) : (fresh n).Valid :=
  Holds4.valid (blank_holds (by decide))

/-- A sequence of operations on default-constructed variables throws and leaves what its
index-by-index description says; every plane is clear past the width, every Logic9 code is 0 to 8,
and `operator==` compares width, domain and states. -/
theorem run_acts_on_states (ops : List Operation) :
    let (errors, values) := run Operation.result ops fresh
    run Operation.described ops (fun _ => .logic4 []) = (errors, fun n => (values n).view) ∧
      (∀ n, ∀ plane < (values n).planeCount, ∀ i, (values n).width ≤ i →
        bit ((values n).planeWords plane) i = false) ∧
      (∀ n, (values n).isLogic9 = true → ∀ i,
        Logic9.codeOfPlanes (bit ((values n).planeWords 0) i) (bit ((values n).planeWords 1) i)
          (bit ((values n).planeWords 2) i) (bit ((values n).planeWords 3) i) ≤ 8) ∧
      ∀ m n, (values m).equal (values n) = true ↔ SameStates (values m) (values n) := by
  obtain ⟨hvalid, hrun⟩ := run_refines ops fresh_valid
  have hfresh : (fun n => (fresh n).view) = fun _ => Bits.logic4 [] := rfl
  rw [hfresh] at hrun
  exact ⟨hrun, fun n => (hvalid n).padded, fun n => (hvalid n).coded,
    fun m n => equal_iff_sameStates (hvalid m) (hvalid n)⟩

example : ((run Operation.result [.fromMsbString 0 "1zx0", .setLogic9 0 2 6] fresh).2 0).view =
    .logic9 [.zero, .x, .l, .one] := by
  decide +kernel

end FsimRuntime.Packed

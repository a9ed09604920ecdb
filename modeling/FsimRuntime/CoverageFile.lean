import Mathlib

/-!
# Writing a coverage database

`write_coverage_database_atomically` (`coverage_database_codec.cpp`) as a
sequence of filesystem operations on the destination, its temporary and its
backup. An operation is atomic; a crash ends the call between two of them. The
stream is checked before its last buffer is flushed, so a write that is refused
at the flush goes unnoticed.
-/

namespace FsimRuntime.CoverageFile

abbrev Bytes := List UInt8

inductive CodecError
  | resourceLimit
  | allocationFailure
  | invalidModel
  | invalidSchema
  | malformed
  | digestMismatch
  | ioFailure
  | atomicReplaceFailure
  deriving DecidableEq, Repr

structure Files where
  destination : Option Bytes
  temporary : Option Bytes
  backup : Option Bytes
  deriving DecidableEq, Repr

inductive Operation
  | createDirectories
  | existsDestination
  | existsBackup
  | recover
  | discardBackup
  | removeTemporary
  | openTemporary
  | writeTemporary
  | flushTemporary
  | existsAgain
  | moveAside
  | publish
  | restore
  | cleanup
  | removeBackup
  deriving DecidableEq, Repr

/-- One call: what `serialize_coverage_database` returns, the shape of the path, and what the
filesystem answers. A write refused at once or at the flush leaves `torn` in the temporary. -/
structure Call where
  encoded : Except CodecError Bytes
  emptyPath : Bool
  hasParent : Bool
  allows : Operation → Bool
  torn : Option Bytes

def Call.bytes (c : Call) : Bytes := c.encoded.toOption.getD []

/-- What a write that is not refused at once leaves in the temporary. -/
def Call.written (c : Call) : Option Bytes :=
  if c.allows .flushTemporary then some c.bytes else c.torn

inductive Point
  | begin
  | createDirectories
  | existsDestination
  | existsBackup (destinationExists : Bool)
  | recover
  | discardBackup
  | removeTemporary
  | openTemporary
  | writeTemporary
  | existsAgain
  | moveAside
  | publish (moved : Bool)
  | restore
  /-- The temporary goes before the call fails with `error`. -/
  | cleanup (error : CodecError)
  | removeBackup
  | returned (error : Option CodecError)
  deriving DecidableEq, Repr

structure State where
  files : Files
  point : Point
  deriving DecidableEq, Repr

namespace State

def goto (s : State) (point : Point) : State := { s with point := point }

def fail (s : State) (error : CodecError) : State := s.goto (.returned (some error))

end State

def step (c : Call) (s : State) : State :=
  match s.point with
  | .begin =>
    match c.encoded with
    | .error error => s.fail error
    | .ok _ =>
      if c.emptyPath then s.fail .ioFailure
      else s.goto (if c.hasParent then .createDirectories else .existsDestination)
  | .createDirectories =>
    if c.allows .createDirectories then s.goto .existsDestination else s.fail .ioFailure
  | .existsDestination =>
    if c.allows .existsDestination then s.goto (.existsBackup s.files.destination.isSome)
    else s.fail .ioFailure
  | .existsBackup destinationExists =>
    if c.allows .existsBackup then
      if s.files.backup.isSome then
        s.goto (if destinationExists then .discardBackup else .recover)
      else s.goto .removeTemporary
    else s.fail .ioFailure
  | .recover =>
    if c.allows .recover then
      ⟨{ s.files with destination := s.files.backup, backup := none }, .removeTemporary⟩
    else s.fail .atomicReplaceFailure
  | .discardBackup =>
    if c.allows .discardBackup then ⟨{ s.files with backup := none }, .removeTemporary⟩
    else s.fail .ioFailure
  | .removeTemporary =>
    if c.allows .removeTemporary then ⟨{ s.files with temporary := none }, .openTemporary⟩
    else s.fail .ioFailure
  | .openTemporary =>
    if c.allows .openTemporary then ⟨{ s.files with temporary := some [] }, .writeTemporary⟩
    else s.fail .ioFailure
  | .writeTemporary =>
    if c.allows .writeTemporary then ⟨{ s.files with temporary := c.written }, .existsAgain⟩
    else ⟨{ s.files with temporary := c.torn }, .cleanup .ioFailure⟩
  | .existsAgain =>
    if c.allows .existsAgain then
      s.goto (if s.files.destination.isSome then .moveAside else .publish false)
    else s.goto (.cleanup .ioFailure)
  | .moveAside =>
    if c.allows .moveAside then
      ⟨{ s.files with destination := none, backup := s.files.destination }, .publish true⟩
    else s.goto (.cleanup .atomicReplaceFailure)
  | .publish moved =>
    if c.allows .publish then
      ⟨{ s.files with destination := s.files.temporary, temporary := none },
        if moved then .removeBackup else .returned none⟩
    else s.goto (if moved then .restore else .cleanup .atomicReplaceFailure)
  | .restore =>
    -- The outcome of the restoring rename is ignored.
    ⟨if c.allows .restore then { s.files with destination := s.files.backup, backup := none }
      else s.files, .cleanup .atomicReplaceFailure⟩
  | .cleanup error =>
    -- So is that of the last removal.
    ⟨if c.allows .cleanup then { s.files with temporary := none } else s.files,
      .returned (some error)⟩
  | .removeBackup =>
    if c.allows .removeBackup then ⟨{ s.files with backup := none }, .returned none⟩
    else s.fail .ioFailure
  | .returned _ => s

def run (c : Call) (n : ℕ) (files : Files) : State := (step c)^[n] ⟨files, .begin⟩

theorem run_succ (c : Call) (n : ℕ) (files : Files) :
    run c (n + 1) files = step c (run c n files) := Function.iterate_succ_apply' ..

section Success

def Settling (c : Call) (s : State) : Prop :=
  match s.point with
  | .begin | .createDirectories | .existsDestination | .restore | .cleanup _
  | .returned (some _) => True
  | .existsBackup destinationExists => destinationExists = s.files.destination.isSome
  | .recover | .discardBackup => True
  | .removeTemporary | .openTemporary | .writeTemporary => s.files.backup = none
  | .existsAgain => s.files.temporary = c.written ∧ s.files.backup = none
  | .moveAside => s.files.temporary = c.written
  | .publish moved => s.files.temporary = c.written ∧ (moved = false → s.files.backup = none)
  | .removeBackup => s.files.destination = c.written ∧ s.files.temporary = none
  | .returned none => s.files = ⟨c.written, none, none⟩

variable {c : Call} {s : State}

theorem step_settling (h : Settling c s) : Settling c (step c s) := by
  obtain ⟨files, p⟩ := s
  cases p with
  | begin =>
    simp only [step]
    split
    · trivial
    · split
      · trivial
      · cases c.hasParent <;> trivial
  | createDirectories | existsDestination =>
    simp only [step]
    split <;> trivial
  | existsBackup decision =>
    simp only [step]
    split
    · split
      · cases decision <;> trivial
      · next hb => simpa [State.goto, Settling] using hb
    · trivial
  | recover | discardBackup | removeTemporary | openTemporary | writeTemporary =>
    simp only [step]
    split <;> simp_all [State.fail, State.goto, Settling]
  | existsAgain =>
    simp only [step]
    split
    · cases files.destination with
      | none => exact ⟨h.1, fun _ => h.2⟩
      | some => exact h.1
    · trivial
  | moveAside =>
    simp only [step]
    split
    · exact ⟨h, nofun⟩
    · trivial
  | publish m =>
    simp only [step]
    split
    · cases m with
      | false =>
        simp_all [Settling]
      | true => exact ⟨h.1, rfl⟩
    · cases m <;> trivial
  | restore | cleanup => trivial
  | removeBackup =>
    simp only [step]
    split
    · simp_all [Settling]
    · trivial
  | returned => exact h

theorem run_settling (c : Call) (n : ℕ) (files : Files) : Settling c (run c n files) := by
  induction n with
  | zero => trivial
  | succ n ih =>
    rw [run_succ]
    exact step_settling ih

theorem run_success {n : ℕ} {files : Files} (h : (run c n files).point = .returned none) :
    (run c n files).files = ⟨c.written, none, none⟩ := by
  have hs := run_settling c n files
  rwa [Settling, h] at hs

end Success

section Replacement

namespace Call

variable (c : Call) (files : Files)

def begins : Bool :=
  c.encoded.isOk && !c.emptyPath && (!c.hasParent || c.allows .createDirectories)

def clears : Bool :=
  c.begins && c.allows .existsDestination && c.allows .existsBackup &&
    (files.backup.isNone || c.allows .discardBackup)

def fills : Bool :=
  c.clears files && c.allows .removeTemporary && c.allows .openTemporary && c.allows .writeTemporary

def movesAside : Bool := c.fills files && c.allows .existsAgain && c.allows .moveAside

end Call

def Untouched (c : Call) (files : Files) (s : State) : Prop :=
  s.files.destination = files.destination ∧ s.files.destination.isSome ∧
    match s.point with
    | .begin => s.files.backup = files.backup
    | .createDirectories => s.files.backup = files.backup ∧ c.encoded.isOk ∧ c.emptyPath = false
    | .existsDestination => s.files.backup = files.backup ∧ c.begins
    | .existsBackup destinationExists =>
      s.files.backup = files.backup ∧ c.begins ∧ c.allows .existsDestination ∧
        destinationExists
    | .discardBackup => c.begins ∧ c.allows .existsDestination ∧ c.allows .existsBackup
    | .removeTemporary => c.clears files
    | .openTemporary => c.clears files ∧ c.allows .removeTemporary
    | .writeTemporary => c.clears files ∧ c.allows .removeTemporary ∧ c.allows .openTemporary
    | .existsAgain => c.fills files
    | .moveAside => c.fills files ∧ c.allows .existsAgain
    | .cleanup _ | .returned (some _) => True
    | _ => False

variable {c : Call} {files : Files} {s : State}

theorem step_untouched (hm : c.movesAside files = false) (h : Untouched c files s) :
    Untouched c files (step c s) := by
  obtain ⟨now, p⟩ := s
  obtain ⟨hsa, hs, hp⟩ := h
  cases p with
  | begin =>
    simp only [step]
    split
    · exact ⟨hsa, hs, trivial⟩
    · next hen =>
      split
      · exact ⟨hsa, hs, trivial⟩
      · next hpa =>
        have hok : c.encoded.isOk := by rw [hen]; rfl
        cases hpr : c.hasParent with
        | true => exact ⟨hsa, hs, hp, hok, by simpa using hpa⟩
        | false => exact ⟨hsa, hs, hp, by simp [Call.begins, hok, hpa, hpr]⟩
  | createDirectories =>
    simp only [step]
    split
    · next ha =>
      exact ⟨hsa, hs, hp.1, by simp [Call.begins, hp.2.1, hp.2.2, ha]⟩
    · exact ⟨hsa, hs, trivial⟩
  | existsDestination =>
    simp only [step]
    split
    · next ha => exact ⟨hsa, hs, hp.1, hp.2, ha, hs⟩
    · exact ⟨hsa, hs, trivial⟩
  | existsBackup decision =>
    obtain ⟨hba, hb, he, rfl⟩ := hp
    simp only [step]
    split
    · next ha =>
      split
      · exact ⟨hsa, hs, hb, he, ha⟩
      · next hn =>
        have hc : c.clears files := by
          simp_all [Call.clears]
        exact ⟨hsa, hs, hc⟩
    · exact ⟨hsa, hs, trivial⟩
  | discardBackup =>
    obtain ⟨hb, he, hl⟩ := hp
    simp only [step]
    split
    · next ha => exact ⟨hsa, hs, by simp [Call.clears, hb, he, hl, ha]⟩
    · exact ⟨hsa, hs, trivial⟩
  | removeTemporary | existsAgain =>
    simp only [step]
    split
    · next ha => exact ⟨hsa, hs, hp, ha⟩
    · exact ⟨hsa, hs, trivial⟩
  | openTemporary =>
    simp only [step]
    split
    · next ha => exact ⟨hsa, hs, hp.1, hp.2, ha⟩
    · exact ⟨hsa, hs, trivial⟩
  | writeTemporary =>
    obtain ⟨hc, hr, ho⟩ := hp
    simp only [step]
    split
    · next ha => exact ⟨hsa, hs, by simp [Call.fills, hc, hr, ho, ha]⟩
    · exact ⟨hsa, hs, trivial⟩
  | moveAside =>
    simp only [step]
    split
    · next ha => simp [Call.movesAside, hp.1, hp.2, ha] at hm
    · exact ⟨hsa, hs, trivial⟩
  | cleanup =>
    simp only [step]
    split <;> exact ⟨hsa, hs, trivial⟩
  | returned e => exact ⟨hsa, hs, hp⟩
  | recover | publish | restore | removeBackup => exact hp.elim

theorem run_untouched (hm : c.movesAside files = false) (hs : files.destination.isSome)
    (n : ℕ) : Untouched c files (run c n files) := by
  induction n with
  | zero => exact ⟨rfl, hs, rfl⟩
  | succ n ih =>
    rw [run_succ]
    exact step_untouched hm ih

theorem run_moved_aside (hm : c.movesAside files) (hs : files.destination.isSome) :
    ∃ n, (run c n files).files.destination = none := by
  simp only [Call.movesAside, Call.fills, Call.clears, Call.begins, Bool.and_eq_true] at hm
  obtain ⟨⟨⟨⟨⟨⟨⟨⟨⟨⟨hok, hpt⟩, hpa⟩, hexi⟩, hl⟩, hba⟩, hr⟩, ho⟩,
    hw⟩, ha⟩, hmo⟩ := hm
  have he : ∃ bytes, c.encoded = .ok bytes := by
    cases hc : c.encoded with
    | ok bytes => exact ⟨bytes, rfl⟩
    | error => simp [hc, Except.toBool] at hok
  obtain ⟨bytes, he⟩ := he
  -- The directories are made or not, a leftover backup is removed or not.
  cases hp : c.hasParent <;> cases hb : files.backup <;> simp only [hb] at hpa hba
  · exact ⟨8, by simp_all [run, step, State.goto]⟩
  · exact ⟨9, by simp_all [run, step, State.goto]⟩
  · exact ⟨9, by simp_all [run, step, State.goto]⟩
  · exact ⟨10, by simp_all [run, step, State.goto]⟩

/-- A reader of the destination sees the previous or the new database throughout the call, and a
later successful call leaves what it has written alone, the new database unless the write is refused
at the flush, exactly when the old file is not moved aside. -/
theorem replacement_atomic_iff (c : Call) (files : Files) (old : Bytes)
    (hold : files.destination = some old) :
    ((∀ n, (run c n files).files.destination = some old ∨
        (run c n files).files.destination = some c.bytes) ∧
      ∀ n later m, (run later m (run c n files).files).point = .returned none →
        (run later m (run c n files).files).files = ⟨later.written, none, none⟩ ∧
        (later.allows .flushTemporary →
          (run later m (run c n files).files).files = ⟨some later.bytes, none, none⟩)) ↔
      c.movesAside files = false := by
  have hsome : files.destination.isSome := Option.isSome_of_eq_some hold
  constructor
  · rintro ⟨hread, -⟩
    by_contra hmoves
    obtain ⟨n, hnone⟩ := run_moved_aside (by simpa using hmoves) hsome
    simpa [hnone] using hread n
  · intro hmoves
    refine ⟨fun n => .inl ?_, fun n later m hreturned => ?_⟩
    · rw [(run_untouched hmoves hsome n).1, hold]
    · refine ⟨run_success hreturned, fun hflush => ?_⟩
      rw [run_success hreturned, Call.written, if_pos hflush]

def plainCall : Call where
  encoded := .ok [2]
  emptyPath := false
  hasParent := true
  allows := fun _ => true
  torn := none

theorem plainCall_destination_missing :
    (run plainCall 9 ⟨some [1], none, none⟩).files = ⟨none, some [2], some [1]⟩ ∧
      (run plainCall 11 ⟨some [1], none, none⟩) =
      ⟨⟨some [2], none, none⟩, .returned none⟩ := by
  decide

theorem refusedCall_atomic :
    let c := { plainCall with allows := fun op => op != .openTemporary }
    ∀ n, (run c n ⟨some [1], none, none⟩).files.destination = some [1] ∨
      (run c n ⟨some [1], none, none⟩).files.destination = some c.bytes :=
  ((replacement_atomic_iff { plainCall with allows := fun op => op != .openTemporary }
    ⟨some [1], none, none⟩ [1] rfl).mpr (by decide)).1

end Replacement

section Crashes

/-- A reader, or the recovery of the next call, finds the database. -/
def Files.Holds (files : Files) (database : Bytes) : Prop :=
  files.destination = some database ∨ files.destination = none ∧ files.backup = some database

def Keeping (c : Call) (database : Bytes) (s : State) : Prop :=
  match s.point with
  | .begin | .createDirectories | .existsDestination | .cleanup _ => s.files.Holds database
  | .existsBackup destinationExists =>
    s.files.Holds database ∧ destinationExists = s.files.destination.isSome
  | .recover | .restore => s.files.destination = none ∧ s.files.backup = some database
  | .discardBackup | .removeTemporary | .openTemporary | .writeTemporary | .existsAgain
  | .moveAside => s.files.destination = some database
  | .publish moved => moved = true ∧ s.files.destination = none ∧ s.files.backup = some database
  | .removeBackup => s.files.destination = c.written
  | .returned _ => s.files.Holds database ∨ s.files.destination = c.written

variable {c : Call} {database : Bytes} {s : State}

theorem step_keeping (hs : Settling c s) (h : Keeping c database s) :
    Keeping c database (step c s) := by
  obtain ⟨⟨d, t, b⟩, p⟩ := s
  cases p with
  | begin =>
    simp only [step]
    split
    · exact .inl h
    · split
      · exact .inl h
      · cases c.hasParent <;> exact h
  | existsBackup decision =>
    obtain ⟨h, hd⟩ := h
    simp only [step]
    split
    · cases d <;> cases b <;> simp_all [Keeping, Files.Holds, State.goto]
    · exact .inl h
  | publish m =>
    -- the temporary that is published is the one that was written
    obtain ⟨rfl, h⟩ := h
    simp only [step]
    split
    · exact hs.1
    · exact h
  | createDirectories | existsDestination | recover | discardBackup | removeTemporary
  | openTemporary | writeTemporary | existsAgain | moveAside | restore | cleanup | removeBackup =>
    simp only [step]
    split <;> simp_all [Keeping, Files.Holds, State.fail, State.goto]
  | returned => exact h

theorem run_keeping {files : Files} (h : files.Holds database) (n : ℕ) :
    Keeping c database (run c n files) := by
  induction n with
  | zero => exact h
  | succ n ih =>
    rw [run_succ]
    exact step_keeping (run_settling c n files) ih

theorem Keeping.holds (h : Keeping c database s) :
    s.files.Holds database ∨ s.files.destination = c.written := by
  obtain ⟨files, p⟩ := s
  cases p with
  | begin | createDirectories | existsDestination | cleanup => exact .inl h
  | existsBackup => exact .inl h.1
  | recover | restore => exact .inl (.inr h)
  | discardBackup | removeTemporary | openTemporary | writeTemporary | existsAgain | moveAside =>
    exact .inl (.inl h)
  | publish => exact .inl (.inr h.2)
  | removeBackup => exact .inr h
  | returned => exact h

def crash (files : Files) (calls : List (Call × ℕ)) : Files :=
  calls.foldl (fun files call => (run call.1 call.2 files).files) files

/-- No sequence of crashes loses the database, unless a write is refused at the flush: one that was
there, or that one of the calls was to write, is whole in the destination, or in the backup from
which the next call recovers it. -/
theorem crashes_keep_database (old : Bytes) (temporary backup : Option Bytes)
    (calls : List (Call × ℕ)) (hflush : ∀ call ∈ calls, call.1.allows .flushTemporary) :
    ∃ database,
      (database = old ∨ ∃ call ∈ calls, database = call.1.bytes) ∧
        (crash ⟨some old, temporary, backup⟩ calls).Holds database := by
  induction calls using List.reverseRecOn with
  | nil => exact ⟨old, .inl rfl, .inl rfl⟩
  | append_singleton calls call ih =>
    obtain ⟨database, hfrom, hholds⟩ :=
      ih fun call hcall => hflush call (List.mem_append_left _ hcall)
    rw [crash, List.foldl_append]
    rcases (run_keeping (c := call.1) hholds call.2).holds with h | h
    · refine ⟨database, hfrom.imp_right ?_, h⟩
      rintro ⟨c, hc, he⟩
      exact ⟨c, List.mem_append_left _ hc, he⟩
    · rw [Call.written, if_pos (hflush call (by simp))] at h
      exact ⟨_, .inr ⟨call, by simp, rfl⟩, .inl h⟩

theorem interrupted_calls_keep_database : ∃ database,
    (database = [1] ∨ ∃ call ∈ [(plainCall, 9), ({ plainCall with encoded := .ok [3] }, 10),
      ({ plainCall with encoded := .ok [4] }, 7)], database = call.1.bytes) ∧
    (crash ⟨some [1], none, none⟩ [(plainCall, 9), ({ plainCall with encoded := .ok [3] }, 10),
      ({ plainCall with encoded := .ok [4] }, 7)]).Holds database :=
  crashes_keep_database [1] none none [(plainCall, 9), ({ plainCall with encoded := .ok [3] }, 10),
    ({ plainCall with encoded := .ok [4] }, 7)] (by simp [plainCall])

/-- A write refused at the flush is published, and the previous database goes with its backup. -/
example : run { plainCall with allows := (· != .flushTemporary), torn := some [] } 11
    ⟨some [1], none, none⟩ = ⟨⟨some [], none, none⟩, .returned none⟩ := by decide

end Crashes

end FsimRuntime.CoverageFile

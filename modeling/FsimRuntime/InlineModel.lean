import FsimRuntime.StutterTraces

/-!
# Expansion of calls

`static_kernel_inline_calls` of `simir_static_kernel_analysis.cpp`, which
expands every call of a program in place, and the programs' execution with a
return-address stack and a stack of saved frames. An operation is left abstract
unless it directs control. Operations that name positions of the code, such as
`DisableBlock` and `Fork`, are copied as they are: only the targets of jumps and
branches become labels.
-/

namespace FsimRuntime.InlineCalls

section Programs

inductive Operation (ω κ : Type)
  | plain (operation : ω)
  | positioned (operation : ω) (positions : List ℕ)
  | callableFramePush (frame : ω) (nativeIsolated : Bool)
  | callableFramePop (frame : ω)
  | call (target returnTarget : ℕ)
  | ret
  | jump (target : ℕ)
  | branch (condition : κ) (whenTrue whenFalse : ℕ)
  | halt
  deriving DecidableEq, Repr

variable {ω κ σ φ : Type}

structure Config (σ φ : Type) where
  pc : Option ℕ
  stack : List ℕ
  frames : List φ
  state : σ

inductive Event (ω κ σ : Type)
  | plain (operation : ω) (state : σ)
  | branch (condition : κ) (state : σ)
  | halt (state : σ)
  deriving DecidableEq, Repr

/-- What operations do to the registers, waits included, and what conditions read from them: an
unknown condition may be an error. An operation with positions says where the process goes on; a
frame is saved before a nested call and restored behind it. -/
structure Semantics (ω κ σ φ : Type) where
  exec : ω → σ → σ
  condition : κ → σ → Option Bool
  redirect : ω → List ℕ → ℕ → σ → ℕ
  save : ω → σ → φ
  restore : ω → φ → σ → σ

def step (semantics : Semantics ω κ σ φ) (program : List (Operation ω κ))
    (config : Config σ φ) : Option (Config σ φ × Option (Event ω κ σ)) := do
  let ⟨pc, stack, frames, state⟩ := config
  let pc ← pc
  match ← program[pc]? with
  | .plain operation =>
    some (⟨some (pc + 1), stack, frames, semantics.exec operation state⟩,
      some (.plain operation state))
  | .positioned operation positions =>
    some (⟨some (semantics.redirect operation positions pc state), stack, frames,
      semantics.exec operation state⟩, some (.plain operation state))
  | .callableFramePush frame _ =>
    some (⟨some (pc + 1), stack, semantics.save frame state :: frames, state⟩, none)
  | .callableFramePop frame => match frames with
    | [] => none
    | saved :: frames =>
      some (⟨some (pc + 1), stack, frames, semantics.restore frame saved state⟩, none)
  | .call target returnTarget =>
    some (⟨some target, returnTarget :: stack, frames, state⟩, none)
  | .ret => match stack with
    | [] => none
    | target :: stack => some (⟨some target, stack, frames, state⟩, none)
  | .jump target => some (⟨some target, stack, frames, state⟩, none)
  | .branch condition whenTrue whenFalse =>
    some (⟨(semantics.condition condition state).map (if · then whenTrue else whenFalse), stack,
      frames, state⟩, some (.branch condition state))
  | .halt => some (⟨none, stack, frames, state⟩, some (.halt state))

/-- Where `DisableBlock` continues: at the end of its interval if the program counter, which stands
behind the running operation, is inside it. -/
def disableBlockTarget (positions : List ℕ) (pc : ℕ) : ℕ :=
  match positions with
  | [first, last] => if first ≤ pc + 1 ∧ pc + 1 < last then last else pc + 1
  | _ => pc + 1

/-- What `native_isolated` asserts, as an invariant of the original program: a frame that is
restored holds what the registers hold. -/
structure Isolated (semantics : Semantics ω κ σ φ) (program : List (Operation ω κ))
    (invariant : Config σ φ → Prop) : Prop where
  kept : ∀ config next event, invariant config →
    step semantics program config = some (next, event) → invariant next
  restored : ∀ pc stack frames state frame, invariant ⟨some pc, stack, frames, state⟩ →
    program[pc]? = some (.callableFramePop frame) →
    ∃ saved rest, frames = saved :: rest ∧ semantics.restore frame saved state = state

end Programs

section Regions

variable {ω κ : Type} (operations : List (Operation ω κ))

def successors (pc : ℕ) : Operation ω κ → List ℕ
  | .jump target => [target]
  | .branch _ whenTrue whenFalse => [whenFalse, whenTrue]
  | .call _ returnTarget => [returnTarget]
  | .ret | .halt => []
  | .plain _ | .positioned _ _ | .callableFramePush _ _ | .callableFramePop _ => [pc + 1]

def walk : ℕ → List ℕ → List ℕ → Option (List ℕ)
  | _, [], region => some region
  | 0, _ :: _, _ => none
  | fuel + 1, pc :: work, region =>
    match operations[pc]? with
    | none => none
    | some operation =>
      if pc ∈ region then walk fuel work region
      else walk fuel (successors pc operation ++ work) (region ++ [pc])

def calleeRegion (entry : ℕ) : Option (List ℕ) :=
  (walk operations (2 * operations.length + 2) [entry] []).map fun region =>
    (List.range operations.length).filter (· ∈ region)

end Regions

section Emission

variable {ω κ : Type} (operations : List (Operation ω κ))

def sizeLimit : ℕ := 2 ^ 18

/-- Targets of emitted operations are label numbers; a label is a context and a position. The
context of the program has no return label. -/
structure Emission (ω κ : Type) where
  out : List (Operation ω κ)
  labels : List (ℕ × ℕ)
  position : ℕ × ℕ → Option ℕ
  contexts : List (Option ℕ)
  called : Bool

def Emission.place (emission : Emission ω κ) (context pc : ℕ) : Emission ω κ :=
  { emission with
    position := Function.update emission.position (context, pc)
      ((emission.position (context, pc)).or (some emission.out.length)) }

def Emission.label (emission : Emission ω κ) (context pc : ℕ) : Emission ω κ × ℕ :=
  match emission.labels.idxOf? (context, pc) with
  | some number => (emission, number)
  | none =>
    ({ emission with labels := emission.labels ++ [(context, pc)] }, emission.labels.length)

def Emission.push (emission : Emission ω κ) (operation : Operation ω κ) : Emission ω κ :=
  { emission with out := emission.out ++ [operation] }

def Emission.pushJump (emission : Emission ω κ) (context pc : ℕ) : Emission ω κ :=
  let (emission, number) := emission.label context pc
  emission.push (.jump number)

abbrev Emitter (ω κ : Type) := List ℕ → ℕ → List ℕ → Emission ω κ →
    Option (Emission ω κ)

def emitOperation (callee : Emitter ω κ) (active : List ℕ) (context : ℕ)
    (emission : Emission ω κ) : Operation ω κ → Option (Emission ω κ × Bool)
  | .callableFramePush _ nativeIsolated => if nativeIsolated then some (emission, true) else none
  | .callableFramePop _ => some (emission, true)
  | .call target returnTarget =>
    if target ∈ active then none
    else do
      let region ← calleeRegion operations target
      let (labelled, number) := emission.label context returnTarget
      let emission ← callee (active ++ [target]) emission.contexts.length region
        { labelled with contexts := labelled.contexts ++ [some number], called := true }
      some (emission, false)
  | .ret => match emission.contexts[context]? with
    | some (some number) => some (emission.push (.jump number), false)
    | _ => none
  | .jump target => some (emission.pushJump context target, false)
  | .branch condition whenTrue whenFalse =>
    let (emission, whenTrue) := emission.label context whenTrue
    let (emission, whenFalse) := emission.label context whenFalse
    some (emission.push (.branch condition whenTrue whenFalse), false)
  | .halt => some (emission.push .halt, false)
  | .plain operation => some (emission.push (.plain operation), true)
  | .positioned operation positions => some (emission.push (.positioned operation positions), true)

def emitRegion (callee : Emitter ω κ) (active : List ℕ) (context : ℕ) :
    List ℕ → Emission ω κ → Option (Emission ω κ)
  | [], emission => some emission
  | pc :: rest, emission => do
    let emission := emission.place context pc
    if sizeLimit < emission.out.length then none
    else do
      let operation ← operations[pc]?
      let (emission, fallsThrough) ←
        emitOperation operations callee active context emission operation
      emitRegion callee active context rest
        (if fallsThrough && rest.head? ≠ some (pc + 1) then emission.pushJump context (pc + 1)
        else emission)

/-- Calls nest at most as deep as there are positions, since a callable is not entered again while
it is being expanded. -/
def emit : ℕ → Emitter ω κ
  | 0 => emitRegion operations fun _ _ _ _ => none
  | depth + 1 => emitRegion operations (emit depth)

end Emission

section Inlining

variable {ω κ : Type}

def Emission.resolve (emission : Emission ω κ) (number : ℕ) : Option ℕ :=
  emission.labels[number]?.bind emission.position

def Emission.resolveOperation (emission : Emission ω κ) : Operation ω κ →
    Option (Operation ω κ)
  | .jump number => (emission.resolve number).map .jump
  | .branch condition whenTrue whenFalse => do
    let whenTrue ← emission.resolve whenTrue
    let whenFalse ← emission.resolve whenFalse
    some (.branch condition whenTrue whenFalse)
  | operation => some operation

structure InlinedProgram (ω κ : Type) where
  operations : List (Operation ω κ)
  bodyBegin : ℕ
  bodyEnd : ℕ
  exitAlt : ℕ

def Emission.initial : Emission ω κ := ⟨[], [], fun _ => none, [none], false⟩

def endsWithJump (operations : List (Operation ω κ)) : Bool :=
  match operations.getLast? with
  | some (.jump _) => true
  | _ => false

def staticKernelInlineCalls (operations : List (Operation ω κ)) (wait jump : ℕ) :
    Option (InlinedProgram ω κ) :=
  if operations.length ≤ wait ∨ operations.length ≤ jump ∨
    (jump ≠ wait + 1 ∧ wait ≠ 0) then none
  else do
    let emission ← emit operations operations.length [] 0 (List.range (jump + 1)) .initial
    if !emission.called || !endsWithJump emission.out then none
    else do
      let out ← emission.out.mapM emission.resolveOperation
      let newWait ← emission.position (0, wait)
      let newJump ← emission.position (0, jump)
      if newJump + 1 ≠ out.length then none
      else if wait = 0 then some ⟨out, 1, newJump, 0⟩
      else if newJump ≠ newWait + 1 then none
      else some ⟨out, 0, newWait, newWait + 1⟩

end Inlining

end FsimRuntime.InlineCalls

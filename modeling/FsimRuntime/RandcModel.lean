import FsimRuntime.ConstraintSearch

/-!
# Randomizing the properties of objects

The part of `randomize_systemverilog_class_object` that draws `randc`
properties: the staged cycle states, the domains they leave to the solver, the
restart of all cycles when the solver fails, and the commit. How a property is
drawn is given with it; the constraints are what the call registers in the
solver. An exception stands for its text.
-/

namespace FsimRuntime.Randomize

open Constraint
open Simir (Value)

/-- A plane of a value as machine words. -/
def planeWords (bits : List Bool) : List (BitVec 64) :=
  (List.range ((bits.length + 63) / 64)).map fun word =>
    BitVec.ofNat 64 (BinaryNumeral.number ((bits.drop (64 * word)).take 64))

def retainWord (signature word : BitVec 64) : BitVec 64 := (signature ^^^ word) * 1099511628211#64

def domainSignature (domain : List Value) : BitVec 64 :=
  let words := BitVec.ofNat 64 domain.length :: domain.flatMap fun value =>
    BitVec.ofNat 64 value.length :: planeWords (value.map Logic4.aval) ++
      planeWords (value.map Logic4.bval)
  let signature := words.foldl retainWord 14695981039346656037#64
  if signature = 0 then 1 else signature

def wideSignature (width : ℕ) : BitVec 64 :=
  mixed (0x7769646572616e64#64 ^^^ BitVec.ofNat 64 width)

def golden : BitVec 64 := 0x9e3779b97f4a7c15#64

def wordMask (width : ℕ) : BitVec 64 := if 64 ≤ width then ~~~0#64 else (1#64 <<< width) - 1

def walkRound (width : ℕ) (state : BitVec 64 × BitVec 64) : BitVec 64 × BitVec 64 :=
  let key := mixed (state.2 + golden)
  let value := (state.1 + key) &&& wordMask width
  let value := (value * (mixed key ||| 1)) &&& wordMask width
  (value ^^^ (value >>> max (width / 2) 1), key)

def wideRandcValue (position : BitVec 64) (width : ℕ) (key : BitVec 64) : BitVec 64 :=
  ((walkRound width)^[4] (position &&& wordMask width, key)).1

structure RandomState where
  streamSeed : BitVec 64
  domainSignature : BitVec 64
  cycle : ℕ
  usedValues : List ℕ
  position : ℕ
  deriving DecidableEq, Repr

def RandomState.fresh (seed : BitVec 64) : RandomState := ⟨seed, 0, 0, [], 0⟩

def swapAt (order : List ℕ) (i j : ℕ) : List ℕ :=
  (order.set i (order.getD j 0)).set j (order.getD i 0)

def shuffle : ℕ → BitVec 64 → List ℕ → List ℕ
  | 0, _, order => order
  | 1, _, order => order
  | last + 2, selection, order =>
    shuffle (last + 1) (mixed (selection + golden))
      (swapAt order (last + 1) (selection.toNat % (last + 2)))

def unused (base : List Value) (state : RandomState) : List ℕ :=
  (List.range base.length).filter fun index => index ∉ state.usedValues

def randcDomain (base : List Value) (state : RandomState) : Except String (List Value) :=
  if (∃ index ∈ state.usedValues, base.length ≤ index) ∨ ¬ state.usedValues.Nodup then
    .error "randc cycle state is structurally invalid"
  else
    let order := unused base state
    let selection :=
      mixed (state.streamSeed ^^^ state.domainSignature ^^^ mixed (BitVec.ofNat 64 state.cycle))
    .ok ((shuffle order.length selection order).map fun index => base.getD index [])

def nextCycle (state : RandomState) : Except String RandomState :=
  if state.cycle = 2 ^ 64 - 1 then .error "randc cycle ordinal exhausted"
  else .ok { state with cycle := state.cycle + 1 }

def stageExact (base : List Value) (state : RandomState) : Except String RandomState :=
  let signature := Randomize.domainSignature base
  let state := if state.domainSignature ≠ signature then
    { state with domainSignature := signature, cycle := 0, usedValues := [] } else state
  if state.usedValues.length = base.length then
    nextCycle state >>= fun state => .ok { state with usedValues := [] }
  else .ok state

def stageWide (width : ℕ) (state : RandomState) : Except String RandomState :=
  let signature := wideSignature width
  let state :=
    if state.domainSignature ≠ signature then
      { state with domainSignature := signature, cycle := 0, usedValues := [], position := 0 }
    else state
  if width < 64 ∧ 2 ^ width ≤ state.position then
    nextCycle state >>= fun state => .ok { state with position := 0 }
  else .ok state

def wideDrawn (width : ℕ) (state : RandomState) : Value :=
  ofWord width (wideRandcValue (BitVec.ofNat 64 state.position) width
    (mixed (state.streamSeed ^^^ wideSignature width ^^^
      mixed (BitVec.ofNat 64 state.cycle)))).toNat

/-- How a property takes part in a call: not selected, `rand`, `randc` with an exact domain, or an
unreferenced wide `randc`. -/
inductive Draw
  | fixed (value : Value)
  | plain (domain : List Value)
  | exact (domain : List Value)
  | wide (width : ℕ)
  deriving DecidableEq, Repr

/-- A property of a call; the key tells which state is its own. -/
structure Item where
  key : ℕ
  identity : String
  profile : Profile
  draw : Draw

structure Staged where
  item : Item
  state : RandomState
  domain : List Value

def stateOf (states : List RandomState) (item : Item) : RandomState :=
  states.getD item.key (.fresh 0)

def stageItem (states : List RandomState) (item : Item) : Except String Staged :=
  match item.draw with
  | .fixed value => .ok ⟨item, stateOf states item, [value]⟩
  | .plain domain => .ok ⟨item, stateOf states item, domain⟩
  | .exact base => stageExact base (stateOf states item) >>= fun state =>
    randcDomain base state >>= fun domain => .ok ⟨item, state, domain⟩
  | .wide width => stageWide width (stateOf states item) >>= fun state =>
    .ok ⟨item, state, [wideDrawn width state]⟩

def lessDown (signedValue : Bool) : Value → Value → Bool
  | left :: lhs, right :: rhs =>
    let a : Bool := if signedValue then right = .one else left = .one
    let b : Bool := if signedValue then left = .one else right = .one
    if a ≠ b then b else lessDown false lhs rhs
  | _, _ => false

def valueLess (left right : Value) (signedValue : Bool) : Bool :=
  lessDown signedValue left.reverse right.reverse

def domainBounds (domain : List Value) (signedValue : Bool) : Value × Value :=
  domain.foldl (fun bounds value =>
    if value.length ≠ bounds.1.length then bounds
    else (if valueLess value bounds.1 signedValue then value else bounds.1,
      if valueLess bounds.2 value signedValue then value else bounds.2))
        (domain.headD [], domain.headD [])

def addItem (states : List RandomState) (registered : Solver × List Staged) (item : Item) :
    Except String (Solver × List Staged) :=
  stageItem states item >>= fun staged =>
    addVariable registered.1 ⟨item.identity, item.profile, staged.domain⟩ >>= fun solver =>
      (match item.draw with
      | .plain domain =>
        let bounds := domainBounds domain item.profile.signedValue
        addDistribution solver ⟨item.identity ++ "::$randomize", registered.1.vars.length,
          [⟨bounds.1, bounds.2, 1, .perValue⟩], none⟩
      | _ => .ok solver) >>= fun solver => .ok (solver, registered.2 ++ [staged])

/-- What the constraints of a call do to a solver. -/
inductive Configured (solver : Solver) : Solver → Prop
  | start : Configured solver solver
  | addVariable {solver' solver'' : Solver} {item : Variable} : Configured solver solver' →
      addVariable solver' item = .ok solver'' → Configured solver solver''
  | addClause {solver' solver'' : Solver} {clause : Clause} : Configured solver solver' →
      addClause solver' clause = .ok solver'' → Configured solver solver''
  | discardSoftClauses {solver' : Solver} (ids : List ℕ) : Configured solver solver' →
      Configured solver (discardSoftClauses solver' ids)
  | addDistribution {solver' solver'' : Solver} {distribution : Distribution} :
      Configured solver solver' →
      addDistribution solver' distribution = .ok solver'' → Configured solver solver''
  | addSolveBefore {solver' solver'' : Solver} {earlier later : ℕ} : Configured solver solver' →
      addSolveBefore solver' earlier later = .ok solver'' → Configured solver solver''

/-- A call of `randomize`. The properties are those of the whole object graph, each with its own
state. -/
structure Call where
  limits : Limits
  items : List Item
  configure : Solver → Except String Solver
  evaluator : Evaluator
  expired : ℕ → Bool
  expiredAgain : ℕ → Bool
  fuel : ℕ
  selection : BitVec 64
  keys_nodup : (items.map (·.key)).Nodup
  configured : ∀ solver solver', configure solver = .ok solver' → Configured solver solver'

def prepare (call : Call) (states : List RandomState) : Except String (Solver × List Staged) :=
  call.items.foldlM (addItem states) (.empty call.limits, []) >>= fun (solver, staged) =>
    call.configure solver >>= fun solver => .ok (solver, staged)

def usedOf (staged : Staged) : List ℕ :=
  match staged.item.draw with
  | .exact _ => staged.state.usedValues
  | .wide _ => staged.state.usedValues
  | _ => []

def restartItem (restarted : Solver × List Staged) (staged : Staged) :
    Except String (Solver × List Staged) :=
  match staged.item.draw with
  | .exact base =>
    nextCycle staged.state >>= fun state =>
      let state := { state with usedValues := [] }
      randcDomain base state >>= fun domain =>
        replaceDomain restarted.1 restarted.2.length domain >>= fun solver =>
          .ok (solver, restarted.2 ++ [⟨staged.item, state, domain⟩])
  | _ => .ok (restarted.1, restarted.2 ++ [staged])

/-- When the solver fails and some cycle has begun, every exact cycle starts anew. -/
def solveCall (call : Call) (states : List RandomState) :
    Except Failure (SolveResult × List Staged) :=
  (prepare call states).mapError .thrown >>= fun (solver, staged) =>
    solve solver call.evaluator call.expired call.fuel call.selection >>= fun result =>
      if result.status = .unsatisfiable ∧ ∃ entry ∈ staged, usedOf entry ≠ [] then
        (staged.foldlM restartItem (solver, [])).mapError .thrown >>= fun (solver, staged) =>
          solve solver call.evaluator call.expiredAgain call.fuel call.selection >>= fun result =>
            .ok (result, staged)
      else .ok (result, staged)

local instance : LawfulBEq (List Logic4) := inferInstance

def commitItem (states : List RandomState) (entry : Staged × Value) :
    Except String (List RandomState) :=
  let (staged, value) := entry
  match staged.item.draw with
  | .exact base =>
    if value ∉ base then .error "randc solver assignment is outside the exact domain"
    else .ok (states.set staged.item.key
      { staged.state with usedValues := staged.state.usedValues ++ [base.idxOf value] })
  | .wide _ => .ok (states.set staged.item.key
      { staged.state with position := (staged.state.position + 1) % 2 ^ 64 })
  | _ => .ok states

/-- The committed states and the values of the properties; nothing when no values are found. -/
def randomize (call : Call) (states : List RandomState) :
    Except Failure (Option (List RandomState × List Value)) :=
  solveCall call states >>= fun (result, staged) =>
    if result.status = .satisfied then
      ((staged.zip result.values).foldlM commitItem states).mapError .thrown >>= fun states =>
        .ok (some (states, result.values))
    else .ok none

end FsimRuntime.Randomize

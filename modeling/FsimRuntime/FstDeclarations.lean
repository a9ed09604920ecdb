import FsimRuntime.FstCompression

/-!
# Declarations and the hierarchy block

The frozen declaration model of `trace_model.hpp` and the hierarchy that
`FstWriter::Impl::hierarchy` writes for it: handles are given to the variables
along one walk of the scope tree and the entries are written along another.
Identities are positive numbers; scope 0 is the root.
-/

namespace FsimRuntime.Fst

inductive TraceSourceKind
  | hdl | systemC | uvm | debugger | callback | internal
deriving DecidableEq, Repr

inductive TraceLanguage
  | unknown | verilog | systemVerilog | vhdl | systemC
deriving DecidableEq, Repr

inductive TraceTypeKind
  | packed | systemVerilogScalar | systemVerilogString | enumeration | vhdlPhysical | vhdlTime
  | vhdlLogic9 | typedLeaf
deriving DecidableEq, Repr

inductive SystemVerilogScalarKind
  | none | shortReal | real | realtime | time | chandle
deriving DecidableEq, Repr

inductive TraceDeclarationKind
  | variable | «alias»
deriving DecidableEq, Repr

structure TraceTypeDeclaration where
  kind : TraceTypeKind
  width : ℕ
  scalarKind : SystemVerilogScalarKind
  canonicalMetadata : Bytes
deriving DecidableEq, Repr

structure TraceSourceDeclaration where
  kind : TraceSourceKind
  language : TraceLanguage
  rootIdentity : Bytes
  library : Bytes
  ownerIdentity : Bytes
  canonicalName : Bytes
deriving DecidableEq, Repr

structure TraceScopeDeclaration where
  id : ℕ
  parent : ℕ
  source : ℕ
  name : Bytes
  path : Bytes
deriving DecidableEq, Repr

structure TraceVariableDeclaration where
  id : ℕ
  scope : ℕ
  type : ℕ
  source : ℕ
  hierarchicalName : Bytes
  reference : Bytes
deriving DecidableEq, Repr

structure TraceAliasDeclaration where
  id : ℕ
  scope : ℕ
  target : ℕ
  source : ℕ
  hierarchicalName : Bytes
  reference : Bytes
deriving DecidableEq, Repr

structure TraceDeclarationEntry where
  id : ℕ
  kind : TraceDeclarationKind
deriving DecidableEq, Repr

structure TraceDeclarationModel where
  scopes : List TraceScopeDeclaration := []
  types : List TraceTypeDeclaration := []
  sources : List TraceSourceDeclaration := []
  vars : List TraceVariableDeclaration := []
  aliases : List TraceAliasDeclaration := []
  entries : List TraceDeclarationEntry := []
deriving DecidableEq, Repr

/-- The limits of a writer; the temporary directory is left out. -/
structure FstWriterLimits where
  maximumScopes : ℕ := 2 ^ 20
  maximumSignals : ℕ := 2 ^ 20
  maximumEvents : ℕ := 2 ^ 20
  maximumTimestamps : ℕ := 2 ^ 20
  maximumNameBytes : ℕ := 2 ^ 20
  maximumTypeMetadataBytes : ℕ := 2 ^ 20
  maximumValueBytes : ℕ := 2 ^ 20
  maximumHierarchyBytes : ℕ := 256 * 2 ^ 20
  maximumBufferBytes : ℕ := 512 * 2 ^ 20
  maximumEventWorkBytes : ℕ := 64 * 2 ^ 20
  maximumContainerBytes : ℕ := 512 * 2 ^ 20
deriving DecidableEq, Repr

def sizeMax : ℕ := 2 ^ 64 - 1

namespace TraceDeclarationModel

def found {α : Type} (message : String) : Option α → Except Error α
  | some a => .ok a
  | none => .error (.outOfRange message)

def element {α : Type} (message : String) (elements : List α) (id : ℕ) : Except Error α :=
  found message (if id = 0 then none else elements[id - 1]?)

variable (model : TraceDeclarationModel)

def variableOf (id : ℕ) : Except Error TraceVariableDeclaration :=
  found "trace variable identity is not declared" (model.vars.find? (·.id = id))

def aliasOf (id : ℕ) : Except Error TraceAliasDeclaration :=
  found "trace alias identity is not declared" (model.aliases.find? (·.id = id))

def typeOf (id : ℕ) : Except Error TraceTypeDeclaration :=
  element "trace type identity is not declared" model.types id

def sourceOf (id : ℕ) : Except Error TraceSourceDeclaration :=
  element "trace source identity is not declared" model.sources id

def entryScope (entry : TraceDeclarationEntry) : Except Error ℕ :=
  match entry.kind with
  | .variable => return (← model.variableOf entry.id).scope
  | .alias => return (← model.aliasOf entry.id).scope

def byScope : Except Error (List (ℕ × TraceDeclarationEntry)) :=
  model.entries.mapM fun entry => return (← model.entryScope entry, entry)

def children (scope : ℕ) : List TraceScopeDeclaration := model.scopes.filter (·.parent = scope)

end TraceDeclarationModel

def isRealScalarKind : SystemVerilogScalarKind → Bool
  | .shortReal | .real | .realtime => true
  | _ => false

variable (type : TraceTypeDeclaration)

def isReal : Bool :=
  type.kind = .systemVerilogScalar && isRealScalarKind type.scalarKind

def fstVariableType : Except Error UInt8 :=
  match type.kind with
  | .packed | .vhdlLogic9 | .typedLeaf => pure 16
  | .systemVerilogString => pure 21
  | .enumeration => pure 28
  | .vhdlPhysical => pure 1
  | .vhdlTime => pure 8
  | .systemVerilogScalar =>
    match type.scalarKind with
    | .shortReal => pure 29
    | .real => pure 3
    | .realtime => pure 20
    | .time => pure 8
    | .chandle => pure 16
    | .none => throw (.invalidArgument "unsupported FST trace type")

def storageWidth : ℕ :=
  if type.kind = .systemVerilogString then 0
  else if isReal type then 8
  else if type.kind = .vhdlLogic9 then type.width * 4
  else type.width

def fstStorageWidth : Except Error ℕ := do
  refuse (type.kind = .vhdlLogic9 && sizeMax / 4 < type.width)
    (.lengthError "FST Logic9 storage width overflows")
  pure (storageWidth type)

def canonicalFstStringType : Bytes := ascii "systemverilog.string:bytes:v1"

def canonicalFstSystemVerilogRealType : SystemVerilogScalarKind → Bytes
  | .shortReal => ascii "systemverilog.shortreal:binary32-binary64-exact:v1"
  | .real => ascii "systemverilog.real:binary64:v1"
  | _ => ascii "systemverilog.realtime:binary64:v1"

def requireTypeProfile : Except Error Unit :=
  match type.kind with
  | .packed =>
    refuse (!type.canonicalMetadata.isEmpty)
      (.invalidArgument "FST packed declaration has unexpected type metadata")
  | .systemVerilogString =>
    refuse (type.canonicalMetadata ≠ canonicalFstStringType)
      (.invalidArgument "FST string declaration lacks canonical type metadata")
  | .systemVerilogScalar =>
    if isRealScalarKind type.scalarKind then
      refuse (type.canonicalMetadata ≠ canonicalFstSystemVerilogRealType type.scalarKind)
        (.invalidArgument "FST real declaration lacks canonical type metadata")
    else
      refuse (!type.canonicalMetadata.isEmpty)
        (.invalidArgument "FST scalar declaration has unexpected type metadata")
  | .typedLeaf =>
    refuse (!(ascii "fsim.fst.leaf.v1;").isPrefixOf type.canonicalMetadata)
      (.invalidArgument "FST extended declaration lacks canonical type metadata")
  | _ =>
    refuse (!(ascii "fsim.fst.type.v1;").isPrefixOf type.canonicalMetadata)
      (.invalidArgument "FST extended declaration lacks canonical type metadata")

def barred (fields : List Bytes) : Bytes := fields.flatMap (· ++ ascii "|")

def kindLetter : TraceDeclarationKind → Bytes
  | .variable => ascii "v"
  | .alias => ascii "a"

def sourceTexts (source : TraceSourceDeclaration) : List Bytes :=
  [source.rootIdentity, source.library, source.ownerIdentity, source.canonicalName]

def declarationPrefix : Bytes := ascii "fsim-trace-declaration-v1|"

def provenancePrefix : Bytes := ascii "fsim-trace-provenance-v1|"

def canonicalDeclarationRecord (source : TraceSourceDeclaration) (type : TraceTypeDeclaration)
    (kind : TraceDeclarationKind) (signal target : ℕ) (path : Bytes) : Bytes :=
  declarationPrefix ++
    barred [kindLetter kind, decimal signal, decimal target, decimal type.kind.ctorIdx,
      decimal type.scalarKind.ctorIdx, decimal type.width, decimal source.kind.ctorIdx,
      decimal source.language.ctorIdx] ++
    ([path, type.canonicalMetadata] ++ sourceTexts source).flatMap sizedText

def canonicalProvenanceRecord (source : TraceSourceDeclaration) (kind : TraceDeclarationKind)
    (signal target : ℕ) : Bytes :=
  provenancePrefix ++
    barred [kindLetter kind, decimal signal, decimal target, decimal source.kind.ctorIdx,
      decimal source.language.ctorIdx] ++
    (sourceTexts source).flatMap sizedText

def commentAttribute (record : Bytes) : Bytes := [0xfc, 0, 0] ++ cString record ++ varint 0

def requireBoundedName (limits : FstWriterLimits) (name : Bytes) : Except Error Unit :=
  refuse (name.isEmpty || limits.maximumNameBytes < name.length || name.contains 0)
    (.invalidArgument "FST hierarchy name is empty or too large")

def declarationRecord (limits : FstWriterLimits) (source : TraceSourceDeclaration)
    (type : TraceTypeDeclaration) (kind : TraceDeclarationKind) (signal target : ℕ)
    (path : Bytes) :
    Except Error Bytes := do
  let record := canonicalDeclarationRecord source type kind signal target path
  requireBoundedName limits record
  pure (commentAttribute record)

def provenanceRecord (limits : FstWriterLimits) (source : TraceSourceDeclaration)
    (kind : TraceDeclarationKind) (signal target : ℕ) : Except Error Bytes :=
  if source.language = .unknown then pure []
  else do
    let record := canonicalProvenanceRecord source kind signal target
    requireBoundedName limits record
    pure (commentAttribute record)

section Hierarchy

variable (limits : FstWriterLimits) (model : TraceDeclarationModel)

abbrev Handles := List (ℕ × TraceTypeDeclaration)

def handleOf (handles : Handles) (signal : ℕ) : Option ℕ :=
  (handles.findIdx? (·.1 = signal)).map (· + 1)

def entriesIn (grouped : List (ℕ × TraceDeclarationEntry)) (scope : ℕ) :
    List TraceDeclarationEntry :=
  (grouped.filter (·.1 = scope)).map (·.2)

def assignHandle (handles : Handles) (entry : TraceDeclarationEntry) : Except Error Handles :=
  match entry.kind with
  | .alias => pure handles
  | .variable => do
    let declared ← model.variableOf entry.id
    refuse (handles.any (·.1 = declared.id)) (.logicError "FST variable handle was assigned twice")
    let type ← model.typeOf declared.type
    pure (handles ++ [(declared.id, type)])

/-- The walk that gives handles; `depth` bounds the depth of the scope tree. -/
def assignHandles (grouped : List (ℕ × TraceDeclarationEntry)) :
    ℕ → Handles → ℕ → Except Error Handles
  | 0, handles, _ => pure handles
  | depth + 1, handles, scope => do
    let handles ← (entriesIn grouped scope).foldlM (assignHandle model) handles
    (model.children scope).foldlM
      (fun handles child => assignHandles grouped depth handles child.id) handles

structure EntryView where
  declared : TraceVariableDeclaration
  source : TraceSourceDeclaration
  target : ℕ
  reference : Bytes
  path : Bytes

def entryView (entry : TraceDeclarationEntry) : Except Error EntryView :=
  match entry.kind with
  | .variable => do
    let declared ← model.variableOf entry.id
    let source ← model.sourceOf declared.source
    pure ⟨declared, source, 0, declared.reference, declared.hierarchicalName⟩
  | .alias => do
    let renamed ← model.aliasOf entry.id
    let declared ← model.variableOf renamed.target
    let source ← model.sourceOf renamed.source
    pure ⟨declared, source, renamed.target, renamed.reference, renamed.hierarchicalName⟩

def aliasHandle (handles : Handles) (entry : TraceDeclarationEntry) (view : EntryView) :
    Except Error ℕ :=
  match entry.kind, handleOf handles (if entry.kind = .variable then entry.id else view.target) with
  | _, none => throw (.logicError "FST declaration target lacks a handle")
  | .variable, some _ => pure 0
  | .alias, some handle => pure handle

def emitEntry (handles : Handles) (entry : TraceDeclarationEntry) : Except Error Bytes := do
  let view ← entryView model entry
  requireBoundedName limits view.reference
  let type ← model.typeOf view.declared.type
  refuse (limits.maximumTypeMetadataBytes < type.canonicalMetadata.length)
    (.lengthError "FST type metadata exceeds its writer limit")
  requireTypeProfile type
  let handle ← aliasHandle handles entry view
  let declaration ← declarationRecord limits view.source type entry.kind entry.id
    view.target view.path
  let provenance ← provenanceRecord limits view.source entry.kind entry.id view.target
  let variableType ← fstVariableType type
  let width ← fstStorageWidth type
  pure (declaration ++ provenance ++ [variableType, 0] ++ cString view.reference ++ varint width ++
    varint handle)

def emitAll {α : Type} (emit : α → Except Error Bytes) : List α → Except Error Bytes
  | [] => pure []
  | a :: as => do
    let bytes ← emit a
    let rest ← emitAll emit as
    pure (bytes ++ rest)

def fstScopeType (scope : TraceScopeDeclaration) (source : TraceSourceDeclaration) : UInt8 :=
  if source.language ≠ .vhdl then 0 else if scope.parent = 0 then 12 else 17

def fsimRoot : Bytes := ascii "__fsim_root"

def scopeBegin (kind : UInt8) (name owner : Bytes) : Bytes :=
  [0xfe, kind] ++ cString name ++ cString owner

def scopeEnd : Bytes := [0xff]

def emitScopeEntries (handles : Handles) (grouped : List (ℕ × TraceDeclarationEntry))
    (scope : ℕ) : Except Error Bytes := do
  let entries ← emitAll (emitEntry limits model handles) (entriesIn grouped scope)
  if scope = 0 && grouped.any (·.1 = 0) then
    pure (scopeBegin 0 fsimRoot [] ++ entries ++ scopeEnd)
  else pure entries

def emitEntries (handles : Handles) (grouped : List (ℕ × TraceDeclarationEntry)) :
    ℕ → ℕ → Except Error Bytes
  | 0, _ => pure []
  | depth + 1, scope => do
    let entries ← emitScopeEntries limits model handles grouped scope
    let children ← emitAll (fun child => do
      requireBoundedName limits child.name
      let source ← model.sourceOf child.source
      if !source.ownerIdentity.isEmpty then requireBoundedName limits source.ownerIdentity
      let body ← emitEntries handles grouped depth child.id
      pure (scopeBegin (fstScopeType child source) child.name source.ownerIdentity ++ body ++
        scopeEnd)) (model.children scope)
    pure (entries ++ children)

def hierarchy : Except Error (Handles × Bytes) := do
  let grouped ← model.byScope
  let handles ← assignHandles model grouped (model.scopes.length + 1) [] 0
  let bytes ← emitEntries limits model handles grouped (model.scopes.length + 1) 0
  pure (handles, bytes)

end Hierarchy

end FsimRuntime.Fst

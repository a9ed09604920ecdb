import FsimRuntime.DirectiveModel

/-!
# The roots of a Verilog compilation unit

`process_tokens`, `process_file`, `process_root` and `finish_compilation_unit`
of `verilog_preprocessor.cpp`: the roots are preprocessed one after the other,
each from the state that the one before left, and each reports whether it may
leave state that later roots read. Behind the last root the joined output is
checked against the selected standard.
-/

namespace FsimRuntime.Preprocessor

def continuedBreaks : List Char → Option Char → Bool → Bool
  | [], _, found => found
  | '\r' :: '\n' :: rest, previous, _ =>
    if previous ≠ some (character 92) then false else continuedBreaks rest (some '\n') true
  | letter :: rest, previous, found =>
    if letter ≠ '\n' ∧ letter ≠ '\r' then continuedBreaks rest (some letter) found
    else if previous ≠ some (character 92) then false
    else continuedBreaks rest (some letter) true

def continuedLineGap (environment : UnitEnvironment) (previous next : Token) : Bool :=
  let start := previous.span.start.offset
  let stop := next.span.start.offset
  if previous.span.source ≠ next.span.source then false
  else match environment.readFile previous.span.source with
    | none => false
    | some source =>
      if stop ≤ start ∨ source.length < stop then false
      else continuedBreaks ((source.take stop).drop start) none false

def lineRest (environment : UnitEnvironment) (previous : Token) (line : ℕ) : List Token → ℕ
  | [] => 0
  | token :: rest =>
    if token.kind = .endOfFile then 0
    else if token.span.start.line ≠ line ∧ !continuedLineGap environment previous token then 0
    else lineRest environment token token.span.start.line rest + 1

def lineEnd (environment : UnitEnvironment) : List Token → ℕ
  | [] => 0
  | first :: rest =>
    if first.kind = .endOfFile then 0
    else lineRest environment first first.span.start.line rest + 1

def openParentheses : ℕ → List Token → ℕ
  | depth, [] => depth
  | depth, token :: rest =>
    if token.kind = .leftParen then openParentheses (depth + 1) rest
    else if token.kind = .rightParen ∧ depth ≠ 0 then
      if depth = 1 then 0 else openParentheses (depth - 1) rest
    else openParentheses depth rest

/-- The formals of a macro may span lines. -/
def definitionEnd (environment : UnitEnvironment) (tokens : List Token) : ℕ →
    ℕ → ℕ → ℕ → ℕ
  | 0, _, _, stop => stop
  | fuel + 1, start, depth, stop =>
    let depth := openParentheses depth ((tokens.take stop).drop start)
    match tokens[stop]? with
    | none => stop
    | some token =>
      if depth = 0 ∨ token.kind = .endOfFile then stop
      else definitionEnd environment tokens fuel stop depth
        (stop + lineEnd environment (tokens.drop stop))

/-- How many tokens belong to the directive that the tokens start with. Text may follow a
conditional directive on its line. -/
def directiveEnd (environment : UnitEnvironment) (directive : String) (tokens : List Token) : ℕ :=
  let stop := lineEnd environment tokens
  let named := (tokens[2]?.map (·.kind)) = some .identifier
  let stop :=
    if (directive = "else" ∨ directive = "endif") ∧ 2 < stop then 2
    else if (directive = "ifdef" ∨ directive = "ifndef" ∨ directive = "elsif") ∧ 3 < stop ∧
      named then 3
    else stop
  match tokens with
  | _ :: _ :: name :: opening :: _ =>
    if directive = "define" ∧ 3 < stop ∧ named ∧ opening.kind = .leftParen
        ∧ name.span.stop.offset = opening.span.start.offset
    then definitionEnd environment tokens (tokens.length + 1) 3 0 stop
    else stop
  | _ => stop

structure SourceMapping where
  physicalSource : String
  logicalSource : String
  physicalAnchorLine : ℕ
  logicalAnchorLine : ℕ
  level : ℕ
  deriving DecidableEq, Repr

def remapLocation (location : Location) (mapping : SourceMapping) : Location :=
  if location.line < mapping.physicalAnchorLine then location
  else { location with
    line :=
      min (mapping.logicalAnchorLine + (location.line - mapping.physicalAnchorLine)) (2 ^ 64 - 1) }

def remapSpan (mapping : SourceMapping) (span : Span) : Span :=
  if physicalSource span ≠ mapping.physicalSource then span
  else
    { source := mapping.logicalSource
      start := remapLocation span.start mapping
      stop := remapLocation span.stop mapping
      physicalSource := if span.physicalSource.isEmpty then mapping.physicalSource
        else span.physicalSource }

def remapToken (mapping : SourceMapping) (token : Token) : Token :=
  { token with span := remapSpan mapping token.span }

def decodeCharacters : List Char → Option (List Char)
  | letter :: escape :: rest =>
    if letter ≠ character 92 then
      if letter = '\n' ∨ letter = '\r' then none
      else (decodeCharacters (escape :: rest)).map (letter :: ·)
    else
      let decoded := if escape = character 92 ∨ escape = character 34 then some escape
        else if escape = 'n' then some '\n'
        else if escape = 'r' then some '\r'
        else if escape = 't' then some '\t'
        else none
      decoded.bind fun letter => (decodeCharacters rest).map (letter :: ·)
  | _ => some []

def decodeStringLiteral (spelling : String) : Option String :=
  let letters := spelling.toList
  if letters.length < 2 ∨ letters.head? ≠ some (character 34) ∨
    letters.getLast? ≠ some (character 34)
  then none
  else (decodeCharacters (letters.drop 1)).map String.ofList

def decimalNumber (token : Token) (requirePositive : Bool) : Option ℕ :=
  let value := token.text.toList.foldl (fun value digit => 10 * value + (digit.toNat - 48)) 0
  if token.kind = .number ∧ token.text.toList ≠ [] ∧ token.text.toList.all Char.isDigit ∧
      value < 2 ^ 64 ∧ (requirePositive → value ≠ 0)
  then some value else none

def lineMapping (environment : Environment) (macros : Macros) (arguments : List Token)
    (directive : Token)
    (physicalSource : String) (nextPhysicalLine : ℕ) : Option SourceMapping × List Diagnostic :=
  let (expanded, found) := expandTokens environment macros arguments
  let refuse := fun code message span stack =>
    ((none : Option SourceMapping),
      found ++ [(⟨.error, code, message, span, stack⟩ : Diagnostic)])
  match expanded with
  | [line, file, level] =>
    match decimalNumber line true with
    | none => refuse "FSIM-SV-PP-040" "`line requires a positive decimal line number" line.span
        line.expansionStack
    | some logicalLine =>
      if 2 ^ 32 - 1 < logicalLine then
        refuse "FSIM-SV-PP-040" "`line requires a positive decimal line number" line.span
          line.expansionStack
      else if file.kind ≠ .stringLiteral then
        refuse "FSIM-SV-PP-041" "`line requires a quoted logical file name" file.span
          file.expansionStack
      else match decodeStringLiteral file.text with
        | none => refuse "FSIM-SV-PP-042" "`line logical file name contains an invalid escape"
            file.span file.expansionStack
        | some logicalSource =>
          match decimalNumber level false with
          | none =>
            refuse "FSIM-SV-PP-043" "`line level must be 0, 1, or 2" level.span level.expansionStack
          | some number =>
            if 2 < number then
              refuse "FSIM-SV-PP-043" "`line level must be 0, 1, or 2" level.span
                level.expansionStack
            else (some ⟨physicalSource, logicalSource, nextPhysicalLine, logicalLine, number⟩,
              found)
  | _ => refuse "FSIM-SV-PP-039" "`line requires a line number, quoted file name, and level"
      directive.span []

section Files

variable (environment : UnitEnvironment)

def emitExpanded (includer : Includer) (context : Context) : ℕ → List Token →
    UnitState → Outcome
  | fuel + 1, tick :: name :: argument :: rest, state =>
    if tick.kind = .backtick ∧ name.kind = .identifier ∧ name.text = "include" then
      (includeFile environment includer context [argument] name state).next
        (emitExpanded includer context fuel rest)
    else
      ({ state, tokens := [tick] } : Outcome).next
        (emitExpanded includer context fuel (name :: argument :: rest))
  | _, tokens, state => { state, tokens }

/-- One round of the loop over the tokens of a file: what it does, how many tokens it takes and the
source mapping that a `line` directive starts. -/
structure Step where
  outcome : Outcome
  consumed : ℕ := 1
  mapping : Option SourceMapping := none

def processLine (name : Token) (arguments : List Token) (mapping : SourceMapping)
    (nextPhysicalLine stop : ℕ) (state : UnitState) : Step :=
  let (mapping, diagnostics) := lineMapping environment.toEnvironment state.macros arguments name
    mapping.physicalSource nextPhysicalLine
  { outcome := { state, diagnostics }, consumed := stop, mapping }

def processInvocation (includer : Includer) (context : Context) (tick : Token) (mapped : List Token)
    (state : UnitState) : Step :=
  let expansion := expandInvocation environment.toEnvironment state.macros
    environment.maximumMacroExpansionDepth [] tick.expansionStack mapped
  { outcome := ({ state, diagnostics := expansion.diagnostics } : Outcome).next
      (emitExpanded environment includer context (expansion.tokens.length + 1) expansion.tokens)
    consumed := mapped.length - expansion.rest.length }

def processToken (includer : Includer) (context : Context) (token : Token) (rest : List Token)
    (mapping : SourceMapping) (state : UnitState) : Step :=
  let tokens := token :: rest
  let mapped := tokens.map (remapToken mapping)
  let tick := remapToken mapping token
  match rest.head?.map (remapToken mapping) with
  | some name =>
    if state.envelope.isSome then
      if startsInvocation mapped ∧ name.text = "pragma" then
        let stop := lineEnd environment tokens
        { outcome :=
          handleDirective environment includer context tick name ((mapped.take stop).drop 2) state
          consumed := stop }
      else { outcome := { state } }
    else if startsInvocation mapped then
      if isDirective name.text then
        let stop := directiveEnd environment name.text tokens
        let arguments := (mapped.take stop).drop 2
        if name.text = "line" ∧ state.active then
          processLine environment name arguments mapping
            (((tokens.take stop).getLastD token).span.stop.line + 1) stop state
        else
          { outcome := handleDirective environment includer context tick name arguments state
            consumed := stop }
      else if !state.active then { outcome := { state } }
      else processInvocation environment includer context tick mapped state
    else if isLineContinuation tick then { outcome := { state } }
    else { outcome := { state, tokens := if state.active then [tick] else [] } }
  | none =>
    { outcome := { state, tokens :=
        if !state.envelope.isSome && !isLineContinuation tick && state.active then
          [tick] else [] } }

/-- The rest of a file under a source mapping, with the mappings that its `line` directives add. -/
def processTokens (includer : Includer) (context : Context) :
    ℕ → List Token → SourceMapping → UnitState → Outcome × List SourceMapping
  | 0, _, _, state => ({ state }, [])
  | _ + 1, [], _, state => ({ state }, [])
  | fuel + 1, token :: rest, mapping, state =>
    if token.kind = .endOfFile then ({ state }, [])
    else
      let step := processToken environment includer context token rest mapping state
      let later := processTokens includer context fuel ((token :: rest).drop step.consumed)
        (step.mapping.getD mapping) step.outcome.state
      (step.outcome.next fun _ => later.1, step.mapping.toList ++ later.2)

def remapDiagnostic (mappings : List SourceMapping) (diagnostic : Diagnostic) : Diagnostic :=
  match mappings.reverse.find? fun mapping => diagnostic.span.source = mapping.physicalSource
    && mapping.physicalAnchorLine ≤ diagnostic.span.start.line with
  | none => diagnostic
  | some mapping => { diagnostic with span := remapSpan mapping diagnostic.span }

def hiddenPayload (ranges : List PayloadRange) (diagnostic : Diagnostic) : Bool :=
  ranges.any fun range => diagnostic.span.source = range.source
    && range.start ≤ diagnostic.span.start.offset && diagnostic.span.start.offset < range.stop

def UnitState.endPayload (state : UnitState) (name : String) (size : ℕ) :
    UnitState × List PayloadRange :=
  match state.envelope with
  | some ⟨span, some (source, start)⟩ =>
    if source = name then
      ({ state with envelope := some ⟨span, none⟩ }, [⟨name, start, size⟩])
    else (state, [])
  | _ => (state, [])

def processContents (includer : Includer) (context : Context) (name : String) (contents : List Char)
    (state : UnitState) : Outcome :=
  let (tokens, lexical) := environment.lexFile name contents
  let lexical := lexical.map fun diagnostic =>
    { diagnostic with expansionStack := context.includeAncestry ++ diagnostic.expansionStack }
  let tokens := tokens.map fun token =>
    { token with expansionStack := context.includeAncestry ++ token.expansionStack }
  let context := { context with includeStack := name :: context.includeStack }
  let (processed, mappings) := match tokens with
    | [] => (({ state := state.startPayload name 0 } : Outcome), [])
    | first :: _ =>
      let mapping : SourceMapping := ⟨first.span.source, first.span.source, 1, 1, 0⟩
      let (processed, mappings) :=
        processTokens environment includer context (tokens.length + 1) tokens
        mapping (state.startPayload name 0)
      (processed, mapping :: mappings)
  let (state, payload) := processed.state.endPayload name contents.length
  let retained :=
    lexical.filter fun diagnostic => !hiddenPayload (processed.ranges ++ payload) diagnostic
  { processed with
    state
    diagnostics := retained.map (remapDiagnostic mappings) ++ processed.diagnostics
    ranges := [] }

/-- The first argument is what is left of the include depth. -/
def processFile : ℕ → Includer
  | 0, context, name, state => diagnose state "FSIM-SV-PP-004"
      ("maximum Verilog include depth exceeded while opening '" ++ name ++ "'")
      (context.includeInvocation.getD ⟨name, ⟨0, 0, 0⟩, ⟨0, 0, 0⟩, name⟩) []
  | depth + 1, context, name, state =>
    let span := context.includeInvocation.getD ⟨name, ⟨0, 0, 0⟩, ⟨0, 0, 0⟩, name⟩
    if name ∈ context.includeStack then
      diagnose state "FSIM-SV-PP-005" ("recursive Verilog include of '" ++ name ++ "'") span []
    else match environment.readFile name with
      | none => diagnose state "FSIM-FE-IO-001" "unable to open source file" span []
      | some contents => processContents environment (processFile depth) context name contents state

end Files

section Roots

def closer (opener : String) : Option String :=
  if opener = "module" ∨ opener = "macromodule" then some "endmodule"
  else if opener = "interface" then some "endinterface"
  else if opener = "program" then some "endprogram"
  else if opener = "package" then some "endpackage"
  else if opener = "primitive" then some "endprimitive"
  else if opener = "config" then some "endconfig"
  else none

def opens (stop : String) : List Token → Bool
  | token :: rest =>
    token.kind = .identifier && closer token.text = some stop
      && (token.text ≠ "interface" || (rest.head?.map (·.text)) ≠ some "class")
  | [] => false

def unitScopeText : ℕ → List Token → String → ℕ → Bool
  | 0, _, _, depth => depth ≠ 0
  | _ + 1, [], _, depth => depth ≠ 0
  | fuel + 1, token :: rest, stop, depth =>
    if token.kind = .endOfFile then unitScopeText fuel rest stop depth
    else if depth = 0 then
      match (if token.kind = .identifier then closer token.text else none) with
      | none => true
      | some stop =>
        if stop = "endprimitive" ∨ !opens stop (token :: rest) then true
        else unitScopeText fuel rest stop 1
    else if opens stop (token :: rest) then unitScopeText fuel rest stop (depth + 1)
    else if token.kind = .identifier ∧ token.text = stop then
      if depth = 1 then
        match rest with
        | colon :: label :: behind =>
          if colon.kind = .colon ∧ label.kind = .identifier then unitScopeText fuel behind stop 0
          else unitScopeText fuel rest stop 0
        | _ => unitScopeText fuel rest stop 0
      else unitScopeText fuel rest stop (depth - 1)
    else unitScopeText fuel rest stop depth

def hasUnitScopeText (tokens : List Token) : Bool := unitScopeText (tokens.length + 1) tokens "" 0

structure PreprocessedRoot where
  path : String
  tokens : List Token
  diagnostics : List Diagnostic
  exportsState : Bool
  deriving DecidableEq, Repr

variable (environment : UnitEnvironment)

def processRoot (state : UnitState) (path : String) : PreprocessedRoot × UnitState :=
  let outcome :=
    processFile environment (environment.maximumIncludeDepth + 1) ⟨[], [], none⟩ path state
  (⟨path, outcome.tokens, outcome.diagnostics,
    outcome.changes ≠ 0 || !outcome.state.conditionals.isEmpty || outcome.state.envelope.isSome
      || hasUnitScopeText outcome.tokens⟩, outcome.state)

def processRoots (state : UnitState) : List String → List PreprocessedRoot × UnitState
  | [] => ([], state)
  | path :: rest =>
    let (root, next) := processRoot environment state path
    let (roots, last) := processRoots next rest
    (root :: roots, last)

def openDiagnostics (state : UnitState) : List Diagnostic :=
  (state.conditionals.reverse.map fun conditional => ⟨.error, "FSIM-SV-PP-002",
    "unterminated conditional compilation block", conditional.opening, []⟩) ++
  state.envelope.toList.map fun envelope => ⟨.error, "FSIM-SV-PP-011",
    "a protected envelope is missing `pragma protect end_protected", envelope.span, []⟩

def onLineOf (token candidate : Token) : Bool :=
  token.span.source = candidate.span.source && token.span.start.line = candidate.span.start.line

/-- The tokens before the candidate are given backwards, and `following` is the one behind them. -/
def isTimescaleArgument (candidate : Token) : Token → List Token → Bool
  | _, [] => false
  | following, token :: earlier =>
    if !onLineOf token candidate then false
    else if token.kind = .backtick then following.text = "timescale"
    else isTimescaleArgument candidate token earlier

def timeUnits : List String := ["s", "ms", "us", "ns", "ps", "fs"]

def signedBase : List Char → Bool
  | first :: second :: rest =>
    first = character 39 && (second = 's' || second = 'S') || signedBase (second :: rest)
  | _ => false

def unbasedUnsized (text : String) : Bool :=
  match text.toList with
  | [first, second] => first = character 39 && second ∈ ['0', '1', 'x', 'X', 'z', 'Z']
  | _ => false

def revisedEscape : List Char → Bool
  | first :: second :: rest =>
    if first ≠ character 92 then revisedEscape (second :: rest)
    else second ∈ ['a', 'v', 'f', 'x'] || revisedEscape rest
  | _ => false

def isTimeLiteral (earlier : List Token) (token : Token) : List Token → Bool
  | next :: _ =>
    next.kind = .identifier && next.text ∈ timeUnits && token.span.source = next.span.source
      && token.span.stop.offset = next.span.start.offset
      && !isTimescaleArgument token token earlier
  | [] => false

def tokenRevision (earlier : List Token) (token : Token) (later : List Token) : List Diagnostic :=
  let require := fun (applies : Bool) (feature : String) (required : Revision) =>
    if applies then (requireStandard environment.toEnvironment feature required token).toList
    else []
  (if token.kind = .number then
    require (environment.revision = .verilog1995 && signedBase token.text.toList)
      "a signed based literal" .verilog2001 ++
    require (unbasedUnsized token.text) "an unbased unsized literal" .systemVerilog2005 ++
    require (isTimeLiteral earlier token later) "a time-unit literal" .systemVerilog2005
  else []) ++
  require (token.kind = .stringLiteral && revisedEscape (token.text.toList.drop 1))
    "this string escape" .systemVerilog2005

/-- The part of the check on the tokens of one root; `behind` are those of the later roots. -/
def rootRevision (behind : List Token) : List Token → List Token → List Diagnostic
  | _, [] => []
  | earlier, token :: later =>
    tokenRevision environment earlier token (later ++ behind) ++
      rootRevision behind (token :: earlier) later

def validateLexicalRevision : List Token → List PreprocessedRoot → List (List Diagnostic)
  | _, [] => []
  | earlier, root :: rest =>
    rootRevision environment (rest.flatMap (·.tokens)) earlier root.tokens ::
      validateLexicalRevision (root.tokens.reverse ++ earlier) rest

structure PreprocessedUnit where
  roots : List PreprocessedRoot
  openEnd : List Diagnostic
  revision : List (List Diagnostic)
  deriving DecidableEq, Repr

def preprocessUnit (macros : Macros) (paths : List String) : PreprocessedUnit :=
  let (roots, last) := processRoots environment ⟨macros, [], none⟩ paths
  ⟨roots, openDiagnostics last, validateLexicalRevision environment [] roots⟩

end Roots

end FsimRuntime.Preprocessor

import FsimRuntime.MacroModel

/-!
# Compiler directives of a Verilog compilation unit

`handle_directive` of `verilog_preprocessor.cpp` and what it calls. The state
is what one root file leaves to the next one. What a step appends to the
output and to the diagnostics, and how often it counts a change of state, is
returned beside the new state. Reading and lexing a file and resolving the
name of an include are parameters.
-/

namespace FsimRuntime.Preprocessor

structure Conditional where
  parentActive : Bool
  active : Bool
  branchTaken : Bool
  sawElse : Bool
  opening : Span
  deriving DecidableEq, Repr

/-- An open protected envelope: where it was opened, and the source and offset at which the payload
that is being skipped starts. -/
structure Envelope where
  span : Span
  payloadStart : Option (String × ℕ)
  deriving DecidableEq, Repr

structure PayloadRange where
  source : String
  start : ℕ
  stop : ℕ
  deriving DecidableEq, Repr

structure UnitState where
  macros : Macros
  conditionals : List Conditional
  envelope : Option Envelope

def UnitState.active (state : UnitState) : Bool :=
  match state.conditionals with
  | [] => true
  | conditional :: _ => conditional.active

structure Outcome where
  state : UnitState
  tokens : List Token := []
  diagnostics : List Diagnostic := []
  ranges : List PayloadRange := []
  changes : ℕ := 0

def Outcome.next (first : Outcome) (continuation : UnitState → Outcome) : Outcome :=
  let second := continuation first.state
  ⟨second.state, first.tokens ++ second.tokens, first.diagnostics ++ second.diagnostics,
    first.ranges ++ second.ranges, first.changes + second.changes⟩

def diagnose (state : UnitState) (code message : String) (span : Span)
    (stack : List String) : Outcome :=
  { state, diagnostics := [⟨.error, code, message, span, stack⟩] }

structure Context where
  includeStack : List String
  includeAncestry : List String
  includeInvocation : Option Span

abbrev Includer := Context → String → UnitState → Outcome

structure UnitEnvironment extends Environment where
  maximumIncludeDepth : ℕ
  readFile : String → Option (List Char)
  lexFile : String → List Char → List Token × List Diagnostic
  resolveInclude : Option String → String → Bool → Option String

def Macros.empty : Macros := ⟨fun _ => none, nofun⟩

def Macros.erase (macros : Macros) (name : String) : Macros where
  find other := if other = name then none else macros.find other
  name_of_find other found h := by
    split_ifs at h
    exact macros.name_of_find other found h

def Macros.insert (macros : Macros) (definition : Macro) : Macros where
  find other := if other = definition.name then some definition else macros.find other
  name_of_find other found h := by
    split_ifs at h with hname
    · cases h
      exact hname.symm
    · exact macros.name_of_find other found h

def sameTokens (left right : List Token) : Bool :=
  left.map (fun token => (token.kind, token.text)) = right.map fun token => (token.kind, token.text)

def sameParameter (left right : MacroParameter) : Bool :=
  left.name = right.name &&
    match left.defaultValue, right.defaultValue with
    | none, none => true
    | some left, some right => sameTokens left right
    | _, _ => false

def sameMacro (left right : Macro) : Bool :=
  sameTokens left.replacement right.replacement &&
    match left.parameters, right.parameters with
    | none, none => true
    | some left, some right =>
      left.length = right.length && (left.zip right).all fun (left, right) =>
        sameParameter left right
    | _, _ => false

/-- The lexer gives a line continuation as an escaped identifier with a line break. -/
def isLineContinuation (token : Token) : Bool :=
  token.text.toList.head? = some (character 92) &&
    token.text.toList.any (fun letter => letter = '\n' || letter = '\r')

def directiveMacroName (arguments : List Token) (directive : Token) :
    Option String × List Diagnostic :=
  let missing : Diagnostic := ⟨.error, "FSIM-SV-PP-012",
    "compiler directive `" ++ directive.text ++ " requires a macro identifier",
    directive.span, []⟩
  match arguments with
  | [] => (none, [missing])
  | first :: rest =>
    if first.kind ≠ .identifier then (none, [missing])
    else (some (macroIdentifier first.text), rest.head?.toList.map fun extra =>
      ⟨.error, "FSIM-SV-PP-013", "unexpected tokens after `" ++ directive.text ++
        " macro identifier", extra.span, []⟩)

variable (environment : Environment)

def directiveCondition (macros : Macros) (arguments : List Token)
    (directive : Token) : Option Bool × List Diagnostic :=
  if (arguments.head?.map (·.kind)) = some .leftParen then
    environment.conditionExpression macros.contains arguments directive
  else
    let (name, diagnostics) := directiveMacroName arguments directive
    (name.map macros.contains, diagnostics)

def rejectExtraDirectiveTokens (arguments : List Token) (directive : Token) : List Diagnostic :=
  arguments.head?.toList.map fun extra => ⟨.error, "FSIM-SV-PP-014",
    "compiler directive `" ++ directive.text ++ " does not accept arguments", extra.span, []⟩

def isDirective (name : String) : Bool :=
  ["define", "undef", "undefineall", "include", "ifdef", "ifndef", "elsif", "else", "endif",
    "timescale", "default_nettype", "resetall", "celldefine", "endcelldefine", "begin_keywords",
    "end_keywords", "line", "pragma", "unconnected_drive", "nounconnected_drive"].contains name

def defaultArgument : List Token → ℕ → ℕ → ℕ → List Token → List Token × List Token
  | [], _, _, _, value => (value, [])
  | token :: rest, parentheses, brackets, braces, value =>
    if parentheses = 0 ∧ brackets = 0 ∧ braces = 0 ∧
      (token.kind = .comma ∨ token.kind = .rightParen) then
      (value, token :: rest)
    else
      let parentheses := if token.kind = .leftParen then parentheses + 1
        else if token.kind = .rightParen then parentheses - 1 else parentheses
      let brackets := if token.kind = .leftBracket then brackets + 1
        else if token.kind = .rightBracket then brackets - 1 else brackets
      let braces := if token.kind = .leftBrace then braces + 1
        else if token.kind = .rightBrace then braces - 1 else braces
      defaultArgument rest parentheses brackets braces
        (if isLineContinuation token then value else value ++ [token])

def formalDefault (tokens : List Token) : Option (List Token) × List Token × List Diagnostic :=
  match tokens with
  | equals :: rest =>
    if equals.kind = .assign then
      let (value, rest) := defaultArgument rest 0 0 0 []
      (some value, rest,
        (requireStandard environment "a default macro argument" .systemVerilog2005 equals).toList)
    else (none, tokens, [])
  | [] => (none, tokens, [])

def macroParameters (environment : Environment) (name : Token) :
    ℕ → List Token → List MacroParameter → List Diagnostic →
      Option (List MacroParameter × List Token) × List Diagnostic
  | 0, _, _, diagnostics => (none, diagnostics)
  | fuel + 1, tokens, parameters, diagnostics =>
    let refuse := fun code message (token : Token) =>
      ((none : Option (List MacroParameter × List Token)),
        diagnostics ++ [(⟨.error, code, message, token.span, []⟩ : Diagnostic)])
    match tokens with
    | [] => refuse "FSIM-SV-PP-018" "unterminated function-like macro parameter list" name
    | first :: rest =>
      if first.kind = .rightParen then (some (parameters, rest), diagnostics)
      else if first.kind ≠ .identifier then
        refuse "FSIM-SV-PP-016" "function-like macro parameter list is malformed" first
      else if parameters.any (·.name = first.text) then
        refuse "FSIM-SV-PP-017" ("duplicate macro parameter '" ++ first.text ++ "'") first
      else
        let (value, rest, found) := formalDefault environment rest
        let parameters := parameters ++ [⟨first.text, value⟩]
        let diagnostics := diagnostics ++ found
        let malformed := fun message (token : Token) =>
          ((none : Option (List MacroParameter × List Token)),
            diagnostics ++ [(⟨.error, "FSIM-SV-PP-016", message, token.span, []⟩ : Diagnostic)])
        match rest with
        | [] => macroParameters environment name fuel [] parameters diagnostics
        | next :: behind =>
          if next.kind = .comma then
            if (behind.head?.map (·.kind)).getD .rightParen = .rightParen then
              malformed "function-like macro parameter list has a trailing comma" next
            else macroParameters environment name fuel behind parameters diagnostics
          else if next.kind ≠ .rightParen then
            malformed "function-like macro parameters must be comma-separated" next
          else macroParameters environment name fuel rest parameters diagnostics

def replacementForms (environment : Environment) : List Token → List Diagnostic
  | tick :: next :: rest =>
    (if tick.kind ≠ .backtick then []
      else if next.kind = .backtick then
        (requireStandard environment "macro token concatenation" .systemVerilog2005 tick).toList
      else if (specialString next).isSome then
        (requireStandard environment "macro argument stringification" .systemVerilog2005
          tick).toList
      else []) ++ replacementForms environment (next :: rest)
  | _ => []

/-- The macro of a definition and the diagnostics before it enters the table. -/
def parseDefinition (arguments : List Token) (directive : Token) :
    Option Macro × List Diagnostic :=
  let missing :=
    (none, [(⟨.error, "FSIM-SV-PP-015", "`define requires a macro identifier", directive.span,
    []⟩ : Diagnostic)])
  match arguments with
  | [] => missing
  | first :: rest =>
    if first.kind ≠ .identifier then missing
    else
      let escaped := first.text.toList.head? = some (character 92)
      let name := { first with text := macroIdentifier first.text }
      if isDirective name.text then
        (none, [⟨.error, "FSIM-SV-PP-055",
          "`define cannot redefine the compiler directive `" ++ name.text, name.span, []⟩])
      else
        let formals := rest.head?.any fun opening => opening.kind = .leftParen
          && name.span.source = opening.span.source
          && name.span.stop.offset + (if escaped then 1 else 0) = opening.span.start.offset
        let (parsed, diagnostics) :=
          if formals then
            let (parameters, found) :=
              macroParameters environment name (rest.length + 1) (rest.drop 1) [] []
            (parameters.map fun (parameters, behind) => (some parameters, behind), found)
          else (some (none, rest), [])
        match parsed with
        | none => (none, diagnostics)
        | some (parameters, behind) =>
          let replacement := behind.filter fun token => !isLineContinuation token
          (some ⟨name.text, parameters, replacement, name.span⟩,
            diagnostics ++ replacementForms environment replacement)

def defineMacro (arguments : List Token) (directive : Token) (state : UnitState) : Outcome :=
  match parseDefinition environment arguments directive with
  | (none, diagnostics) => { state, diagnostics }
  | (some definition, diagnostics) =>
    let redefined := match state.macros.find definition.name with
      | none => []
      | some existing =>
        if sameMacro existing definition then []
        else [(⟨.warning, "FSIM-SV-PP-044", "macro `" ++ definition.name ++
          "' is redefined with a different parameter list or replacement", definition.definition,
          ["previous definition at " ++ locationText existing.definition]⟩ : Diagnostic)]
    { state := { state with macros := state.macros.insert definition }
      diagnostics := diagnostics ++ redefined
      changes := 1 }

def physicalSource (span : Span) : String :=
  if span.physicalSource.isEmpty then span.source else span.physicalSource

def requestedFile (tokens : List Token) : Option (String × Bool) :=
  match tokens with
  | [token] =>
    if token.kind = .stringLiteral ∧ 2 ≤ token.text.length then
      some (String.ofList (token.text.toList.drop 1).dropLast, true)
    else none
  | first :: rest =>
    if 3 ≤ tokens.length ∧ first.kind = .less ∧
      (rest.getLast?.map (·.kind)) = some .greater then
      some ((rest.dropLast.map (·.text)).foldl (· ++ ·) "", false)
    else none
  | [] => none

def UnitState.startPayload (state : UnitState) (source : String) (offset : ℕ) : UnitState :=
  { state with envelope := state.envelope.map fun envelope =>
      { envelope with payloadStart := some (source, offset) } }

def UnitState.payloadUpTo (state : UnitState) (offset : ℕ) : List PayloadRange :=
  match state.envelope with
  | some ⟨_, some (source, start)⟩ => [⟨source, start, offset⟩]
  | _ => []

def includeFile (environment : UnitEnvironment) (includer : Includer) (context : Context)
    (arguments : List Token) (directive : Token) (state : UnitState) : Outcome :=
  match arguments with
  | [] => diagnose state "FSIM-SV-PP-019" "`include requires a quoted or angle-bracket file name"
      directive.span []
  | first :: _ =>
    let (replacement, found) := expandTokens environment.toEnvironment state.macros arguments
    ({ state, diagnostics := found } : Outcome).next fun state =>
      match replacement with
      | [] => diagnose state "FSIM-SV-PP-020" "macro-expanded `include name produced no tokens"
          first.span []
      | head :: _ =>
        match requestedFile replacement with
        | none => diagnose state "FSIM-SV-PP-021" "`include name must be a string literal or <file>"
            head.span head.expansionStack
        | some (requested, quoted) =>
          match environment.resolveInclude context.includeStack.head? requested quoted with
          | none => diagnose state "FSIM-SV-PP-022"
              ("cannot resolve Verilog include '" ++ requested ++ "'") directive.span []
          | some resolved =>
            let included := includer
              { context with
                includeAncestry := context.includeAncestry ++
                  ["included '" ++ resolved ++ "' from " ++ locationText directive.span]
                includeInvocation := some directive.span } resolved state
            { included with
              state :=
                included.state.startPayload (physicalSource directive.span)
                  directive.span.stop.offset
              ranges := state.payloadUpTo directive.span.start.offset ++ included.ranges }

def openConditional (tick name : Token) (arguments : List Token) (state : UnitState) : Outcome :=
  let (condition, diagnostics) := directiveCondition environment state.macros arguments name
  let parent := state.active
  let take := match condition with
    | none => false
    | some condition => if name.text = "ifdef" then condition else !condition
  { state := { state with conditionals :=
      ⟨parent, parent && take, parent && take, false, cover tick.span name.span⟩ ::
        state.conditionals }
    diagnostics }

def nextConditional (name : Token) (arguments : List Token) (state : UnitState) : Outcome :=
  match state.conditionals with
  | [] => diagnose state "FSIM-SV-PP-006" "`elsif without a matching `ifdef or `ifndef" name.span []
  | conditional :: outer =>
    let (condition, diagnostics) := directiveCondition environment state.macros arguments name
    let take := conditional.parentActive && !conditional.branchTaken && condition.getD false
    { state := { state with conditionals := { conditional with
        active := take, branchTaken := conditional.branchTaken || take } :: outer }
      diagnostics := (if conditional.sawElse then [⟨.error, "FSIM-SV-PP-007",
        "`elsif cannot follow `else in one conditional block", name.span, []⟩] else []) ++
          diagnostics }

def otherwiseConditional (name : Token) (arguments : List Token) (state : UnitState) : Outcome :=
  match state.conditionals with
  | [] => diagnose state "FSIM-SV-PP-008" "`else without a matching `ifdef or `ifndef" name.span []
  | conditional :: outer =>
    { state := { state with conditionals := { conditional with
        sawElse := true
        active := conditional.parentActive && !conditional.branchTaken
        branchTaken := true } :: outer }
      diagnostics := (if conditional.sawElse then [⟨.error, "FSIM-SV-PP-009",
        "duplicate `else in one conditional block", name.span, []⟩] else [])
          ++ rejectExtraDirectiveTokens arguments name }

def closeConditional (name : Token) (arguments : List Token) (state : UnitState) : Outcome :=
  match state.conditionals with
  | [] => diagnose state "FSIM-SV-PP-010" "`endif without a matching `ifdef or `ifndef" name.span []
  | _ :: outer =>
    { state := { state with conditionals := outer }
      diagnostics := rejectExtraDirectiveTokens arguments name }

def protectPragma (tick name keyword : Token) (state : UnitState) : Outcome :=
  let refuse := fun message => diagnose state "FSIM-SV-PP-011" message name.span []
  if keyword.kind ≠ .identifier then refuse "`pragma protect requires a protect keyword"
  else if keyword.text = "begin_protected" then
    if state.envelope.isSome then refuse "a protected envelope cannot be nested"
    else
      let opened : Envelope :=
        ⟨name.span, some (physicalSource name.span, name.span.stop.offset)⟩
      { refuse "encrypted protected-envelope payload requires a decryption provider" with
        state := { state with envelope := some opened } }
  else if keyword.text = "end_protected" then
    if state.envelope.isNone then
      refuse "`pragma protect end_protected has no matching begin_protected"
    else
      { state := { state with envelope := none }
        ranges := state.payloadUpTo tick.span.start.offset }
  else { state }

def handlePragma (tick name : Token) (arguments : List Token) (state : UnitState) : Outcome :=
  match requireStandard environment "`pragma" .verilog2005 name with
  | some diagnostic => { state, diagnostics := [diagnostic] }
  | none =>
    let unnamed := diagnose state "FSIM-SV-PP-056" "`pragma requires a pragma name" name.span []
    match arguments with
    | [] => unnamed
    | first :: rest =>
      if first.kind ≠ .identifier then unnamed
      else if first.text ≠ "protect" then { state }
      else match rest with
        | [] => { state }
        | keyword :: _ => protectPragma tick name keyword state

/-- The directives that the parser reads stay in the output. -/
def parserDirective (tick name : Token) (arguments : List Token) (state : UnitState) : Outcome :=
  let (expanded, diagnostics) := expandTokens environment state.macros arguments
  { state, tokens := tick :: name :: expanded, diagnostics, changes := 1 }

def isParserDirective (name : String) : Bool :=
  ["timescale", "default_nettype", "resetall", "celldefine", "endcelldefine", "begin_keywords",
    "end_keywords", "unconnected_drive", "nounconnected_drive"].contains name

def handleDirective (environment : UnitEnvironment) (includer : Includer) (context : Context)
    (tick name : Token) (arguments : List Token) (state : UnitState) : Outcome :=
  let standard := environment.toEnvironment
  if name.text = "ifdef" ∨ name.text = "ifndef" then
    openConditional standard tick name arguments state
  else if name.text = "elsif" then nextConditional standard name arguments state
  else if name.text = "else" then otherwiseConditional name arguments state
  else if name.text = "endif" then closeConditional name arguments state
  else if !state.active then { state }
  else if name.text = "pragma" then handlePragma standard tick name arguments state
  else if name.text = "define" then defineMacro standard arguments name state
  else if name.text = "undef" then
    match directiveMacroName arguments name with
    | (none, diagnostics) => { state, diagnostics }
    | (some erased, diagnostics) =>
      { state := { state with macros := state.macros.erase erased }, diagnostics, changes := 1 }
  else if name.text = "undefineall" then
    match requireStandard standard "`undefineall" .systemVerilog2005 name with
    | some diagnostic => { state, diagnostics := [diagnostic] }
    | none => { state := { state with macros := .empty }
                diagnostics := rejectExtraDirectiveTokens arguments name
                changes := 1 }
  else if name.text = "include" then includeFile environment includer context arguments name state
  else
    match (if name.text = "begin_keywords" ∨ name.text = "end_keywords"
      then requireStandard standard ("`" ++ name.text) .verilog2005 name else none) with
    | some diagnostic => { state, diagnostics := [diagnostic] }
    | none =>
      if isParserDirective name.text then parserDirective standard tick name arguments state
      else diagnose state "FSIM-SV-PP-011"
        ("recognized but unsupported compiler directive `" ++ name.text ++ "'") name.span []

end FsimRuntime.Preprocessor

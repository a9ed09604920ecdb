import Mathlib

/-!
# Verilog macro expansion

Tokens, macros and `expand_invocation` of `verilog_preprocessor.cpp`. The
lexer that token concatenation calls and the parenthesised conditions of
conditional directives are parameters. A function that recurses through the
expansion takes the depth that is left.
-/

namespace FsimRuntime.Preprocessor

inductive TokenKind
  | identifier | number | stringLiteral | backtick | leftParen | rightParen | leftBracket
  | rightBracket | leftBrace | rightBrace | comma | minus | colon | assign | less | greater
  | endOfFile | other
  deriving DecidableEq, Repr

structure Location where
  line : ℕ
  column : ℕ
  offset : ℕ
  deriving DecidableEq, Repr

structure Span where
  source : String
  start : Location
  stop : Location
  physicalSource : String
  deriving DecidableEq, Repr

def cover (first last : Span) : Span :=
  { first with
    source := if first.source.isEmpty then last.source else first.source
    stop := last.stop }

def locationText (span : Span) : String :=
  span.source ++ ":" ++ toString span.start.line ++ ":" ++ toString span.start.column

inductive GeneratedText
  | none | fileMacro | fileMacroDerived
  deriving DecidableEq, Repr

structure Token where
  kind : TokenKind
  text : String
  span : Span
  expansionStack : List String
  generatedText : GeneratedText
  deriving DecidableEq, Repr

inductive Severity
  | warning | error
  deriving DecidableEq, Repr

structure Diagnostic where
  severity : Severity
  code : String
  message : String
  span : Span
  expansionStack : List String
  deriving DecidableEq, Repr

inductive Revision
  | verilog1995 | verilog2001 | verilog2005 | systemVerilog2005 | systemVerilog2009
  | systemVerilog2012 | systemVerilog2017 | systemVerilog2023
  deriving DecidableEq, Repr

def Revision.rank : Revision → ℕ
  | .verilog1995 => 0
  | .verilog2001 => 1
  | .verilog2005 => 2
  | .systemVerilog2005 => 3
  | .systemVerilog2009 => 4
  | .systemVerilog2012 => 5
  | .systemVerilog2017 => 6
  | .systemVerilog2023 => 7

structure MacroParameter where
  name : String
  defaultValue : Option (List Token)
  deriving DecidableEq, Repr

structure Macro where
  name : String
  parameters : Option (List MacroParameter)
  replacement : List Token
  definition : Span
  deriving DecidableEq, Repr

structure Macros where
  find : String → Option Macro
  name_of_find : ∀ name found, find name = some found → found.name = name

def Macros.contains (macros : Macros) (name : String) : Bool := (macros.find name).isSome

/-- What does not change during a run. `lex` gives the tokens of an accepted text with the end of
file, `revisionText` names a standard. -/
structure Environment where
  maximumMacroExpansionDepth : ℕ
  revision : Revision
  revisionText : Revision → String
  lex : String → Option (List (TokenKind × String))
  conditionExpression : (String → Bool) → List Token → Token →
    Option Bool × List Diagnostic

def character (code : ℕ) : Char := Char.ofNat code

def macroIdentifier (spelling : String) : String :=
  match spelling.toList with
  | first :: rest => if first = character 92 then String.ofList rest else spelling
  | [] => spelling

def requireStandard (environment : Environment) (feature : String) (required : Revision)
    (token : Token) : Option Diagnostic :=
  if required.rank ≤ environment.revision.rank then none
  else some ⟨.error, "FSIM-SV-PP-052",
    feature ++ " requires " ++ environment.revisionText required ++ "; selected " ++
      environment.revisionText environment.revision ++
      ". Select that or a later standard revision, or rewrite the form",
    token.span, token.expansionStack⟩

def startsInvocation : List Token → Bool
  | tick :: name :: _ => tick.kind = .backtick && name.kind = .identifier
  | _ => false

def systemverilogCoverageConstant (name : String) : Option ℤ :=
  if name = "SV_COV_START" then some 0
  else if name = "SV_COV_STOP" then some 1
  else if name = "SV_COV_RESET" then some 2
  else if name = "SV_COV_CHECK" then some 3
  else if name = "SV_COV_MODULE" then some 10
  else if name = "SV_COV_HIER" then some 11
  else if name = "SV_COV_ASSERTION" then some 20
  else if name = "SV_COV_FSM_STATE" then some 21
  else if name = "SV_COV_STATEMENT" then some 22
  else if name = "SV_COV_TOGGLE" then some 23
  else if name = "SV_COV_OVERFLOW" then some (-2)
  else if name = "SV_COV_ERROR" then some (-1)
  else if name = "SV_COV_NOCOV" then some 0
  else if name = "SV_COV_OK" then some 1
  else if name = "SV_COV_PARTIAL" then some 2
  else none

def escapedCharacter (letter : Char) : List Char :=
  if letter = character 92 then [character 92, character 92]
  else if letter = character 34 then [character 92, character 34]
  else if letter = '\n' then [character 92, 'n']
  else if letter = '\r' then [character 92, 'r']
  else if letter = '\t' then [character 92, 't']
  else [letter]

def stringLiteralSpelling (value : String) : String :=
  String.ofList ([character 34] ++ value.toList.flatMap escapedCharacter ++ [character 34])

def builtInTokens (name : Token) (span : Span) (stack : List String) :
    Option (String × List Token) :=
  match systemverilogCoverageConstant name.text with
  | some value => some ("`" ++ name.text,
      if value < 0 then
        [⟨.minus, "-", span, stack, .none⟩,
          ⟨.number, toString (-value), span, stack, .none⟩]
      else [⟨.number, toString value, span, stack, .none⟩])
  | none =>
    if name.text = "__FILE__" then some ("`__FILE__",
      [⟨.stringLiteral, stringLiteralSpelling span.source, span, stack, .fileMacro⟩])
    else if name.text = "__LINE__" then some ("`__LINE__",
      [⟨.number, toString span.start.line, span, stack, .none⟩])
    else none

def expandBuiltIn (environment : Environment) (tick name : Token) (stack : List String) :
    Option (List Token × List Diagnostic) :=
  match builtInTokens name (cover tick.span name.span) stack with
  | some (feature, tokens) =>
    match requireStandard environment feature .systemVerilog2005 name with
    | some diagnostic => some ([], [diagnostic])
    | none => some (tokens, [])
  | none => if name.text = "include" then some ([tick, name], []) else none

def isKnownMacroInvocation (macros : Macros) (name : String) : Bool :=
  macros.contains name || name = "include" || name = "__FILE__" || name = "__LINE__"
    || (systemverilogCoverageConstant name).isSome

def scanArguments : List Token → ℤ → ℕ → ℕ → List Token → List (List Token) →
    Option (List Token × List (List Token)) × List Token
  | [], _, _, _, _, _ => (none, [])
  | token :: rest, parentheses, brackets, braces, current, arguments =>
    if token.kind = .endOfFile then (none, token :: rest)
    else if token.kind = .rightParen ∧ parentheses = 1 ∧ brackets = 0 ∧ braces = 0 then
      (some (current, arguments), rest)
    else
      let parentheses := if token.kind = .leftParen then parentheses + 1
        else if token.kind = .rightParen then parentheses - 1 else parentheses
      let brackets := if token.kind = .leftBracket then brackets + 1
        else if token.kind = .rightBracket then brackets - 1 else brackets
      let braces := if token.kind = .leftBrace then braces + 1
        else if token.kind = .rightBrace then braces - 1 else braces
      if token.kind = .comma ∧ parentheses = 1 ∧ brackets = 0 ∧ braces = 0 then
        scanArguments rest parentheses brackets braces [] (arguments ++ [current])
      else scanArguments rest parentheses brackets braces (current ++ [token]) arguments

def parseArguments (tokens : List Token) (definition : Macro) (invocation : Token) :
    List (List Token) × List Token × List Diagnostic :=
  match tokens with
  | first :: rest =>
    if first.kind = .leftParen then
      match scanArguments rest 1 0 0 [] [] with
      | (none, rest) => ([], rest, [⟨.error, "FSIM-SV-PP-024",
          "unterminated argument list for macro `" ++ definition.name ++ "'",
          invocation.span, invocation.expansionStack⟩])
      | (some (current, arguments), rest) =>
        let named := (definition.parameters.map fun parameters => !parameters.isEmpty).getD false
        (if !current.isEmpty || !arguments.isEmpty || named then arguments ++ [current]
          else arguments, rest, [])
    else ([], first :: rest, [⟨.error, "FSIM-SV-PP-023",
      "function-like macro `" ++ definition.name ++ " requires an argument list",
      invocation.span, invocation.expansionStack⟩])
  | [] => ([], [], [⟨.error, "FSIM-SV-PP-023",
      "function-like macro `" ++ definition.name ++ " requires an argument list",
      invocation.span, invocation.expansionStack⟩])

def bindArguments (definition : Macro) (parameters : List MacroParameter)
    (arguments : List (List Token)) (span : Span) (stack : List String) :
    Except Diagnostic (List (List Token)) :=
  if parameters.length < arguments.length then
    .error ⟨.error, "FSIM-SV-PP-030", "macro `" ++ definition.name ++ "' expects " ++
      toString parameters.length ++ " argument(s), received " ++ toString arguments.length,
      span, stack⟩
  else
    parameters.zipIdx.mapM fun (parameter, i) =>
      match arguments[i]?, parameter.defaultValue with
      | some [], some value => .ok value
      | some argument, _ => .ok argument
      | none, some value => .ok value
      | none, none => .error ⟨.error, "FSIM-SV-PP-030", "macro `" ++ definition.name ++
          "' is missing required argument '" ++ parameter.name ++ "'", span, stack⟩

def parameterIndex (definition : Macro) (name : String) : Option ℕ :=
  definition.parameters.bind fun parameters => parameters.findIdx? (·.name = name)

section Conditionals

structure ReplacementConditional where
  parentActive : Bool
  active : Bool
  branchTaken : Bool
  sawElse : Bool

variable (environment : Environment) (macros : Macros) (definition : Macro)
  (arguments : List (List Token))

def conditionPiece (token : Token) : String :=
  match (if token.kind = .identifier then parameterIndex definition token.text else none) with
  | some position => ((arguments[position]?.getD []).map (·.text)).foldl (· ++ ·) ""
  | none => token.text

def joinCondition (line : ℕ) : List Token → String → String × List Token
  | first :: second :: third :: rest, name =>
    if first.kind = .backtick ∧ second.kind = .backtick ∧ third.span.start.line = line
        ∧ (third.kind = .identifier ∨ third.kind = .number)
    then joinCondition line rest (name ++ conditionPiece definition arguments third)
    else (name, first :: second :: third :: rest)
  | rest, name => (name, rest)

def takeParenthesised (line : ℕ) : List Token → ℕ → List Token →
    Option (List Token × List Token)
  | [], _, _ => none
  | token :: rest, depth, taken =>
    if token.span.start.line ≠ line then none
    else if token.kind = .leftParen then takeParenthesised line rest (depth + 1) (taken ++ [token])
    else if token.kind = .rightParen then
      if depth = 0 then none
      else if depth = 1 then some (taken ++ [token], rest)
      else takeParenthesised line rest (depth - 1) (taken ++ [token])
    else takeParenthesised line rest depth (taken ++ [token])

def replacementCondition (line : ℕ) (directive : Token) (tokens : List Token) :
    Option Bool × List Token × List Diagnostic :=
  match tokens with
  | [] => (none, tokens, [])
  | first :: rest =>
    if first.span.start.line ≠ line then (none, tokens, [])
    else if first.kind = .identifier then
      let (name, rest) :=
        joinCondition definition arguments line rest (conditionPiece definition arguments first)
      (some (macros.contains (macroIdentifier name)), rest, [])
    else if first.kind ≠ .leftParen then (none, tokens, [])
    else match takeParenthesised line tokens 0 [] with
      | none => (none, tokens, [])
      | some (condition, rest) =>
        let (value, diagnostics) :=
          environment.conditionExpression macros.contains condition directive
        (value, rest, diagnostics)

def activeReplacement : List ReplacementConditional → Bool
  | [] => true
  | conditional :: _ => conditional.active

/-- The selected tokens of a replacement text; the innermost conditional comes first. -/
def selectConditionals (span : Span) (stack : List String) :
    ℕ → List Token → List ReplacementConditional → List Token × List Diagnostic
  | 0, _, _ => ([], [])
  | _ + 1, [], conditionals =>
    ([], if conditionals.isEmpty then [] else [⟨.error, "FSIM-SV-PP-050",
      "macro `" ++ definition.name ++ "' contains an unterminated conditional directive",
      span, stack⟩])
  | fuel + 1, tick :: rest, conditionals =>
    let malformed :=
      fun message => (⟨.error, "FSIM-SV-PP-049", message, span, stack⟩ : Diagnostic)
    let next := fun rest conditionals (found : List Diagnostic) =>
      let (tokens, diagnostics) := selectConditionals span stack fuel rest conditionals
      (tokens, found ++ diagnostics)
    let ordinary := fun (_ : Unit) =>
      let (tokens, diagnostics) := selectConditionals span stack fuel rest conditionals
      (if activeReplacement conditionals then tick :: tokens else tokens, diagnostics)
    match rest with
    | [] => ordinary ()
    | name :: rest =>
      if tick.kind ≠ .backtick ∨ name.kind ≠ .identifier then ordinary ()
      else if name.text = "ifdef" ∨ name.text = "ifndef" then
        let (condition, behind, diagnostics) :=
          replacementCondition environment macros definition arguments
            name.span.start.line name rest
        match condition with
        | none => next rest conditionals
            (diagnostics ++ [malformed ("conditional directive inside macro `" ++
            definition.name ++ "' requires an identifier or a valid 2023 Boolean expression")])
        | some condition =>
          let parent := activeReplacement conditionals
          let take := if name.text = "ifdef" then condition else !condition
          next behind
            (⟨parent, parent && take, parent && take, false⟩ :: conditionals) diagnostics
      else if name.text = "elsif" then
        let (condition, behind, diagnostics) :=
          replacementCondition environment macros definition arguments
            name.span.start.line name rest
        let behind := if condition.isSome then behind else rest
        match conditionals, condition with
        | [], _ => next behind conditionals
            (diagnostics ++ [malformed "`elsif inside a macro has no matching conditional"])
        | _ :: _, none => next behind conditionals (diagnostics ++
            [malformed
              "`elsif inside a macro requires an identifier or a valid 2023 Boolean expression"])
        | conditional :: outer, some condition =>
          let take := conditional.parentActive && !conditional.branchTaken && condition
          next behind ({ conditional with
              active := take, branchTaken := conditional.branchTaken || take } :: outer)
            (diagnostics ++ if conditional.sawElse
              then [malformed "`elsif inside a macro cannot follow `else"] else [])
      else if name.text = "else" then
        match conditionals with
        | [] =>
          next rest conditionals [malformed "`else inside a macro has no matching conditional"]
        | conditional :: outer =>
          next rest ({ conditional with
              sawElse := true
              active := conditional.parentActive && !conditional.branchTaken
              branchTaken := true } :: outer)
            (if conditional.sawElse then [malformed "duplicate `else inside a macro conditional"]
              else [])
      else if name.text = "endif" then
        match conditionals with
        | [] =>
          next rest conditionals [malformed "`endif inside a macro has no matching conditional"]
        | _ :: outer => next rest outer []
      else ordinary ()

def selectReplacementConditionals (span : Span) (stack : List String) :
    List Token × List Diagnostic :=
  selectConditionals environment macros definition arguments span stack
    (definition.replacement.length + 1) definition.replacement []

end Conditionals

def digitless (token : Token) : Bool :=
  let behind := token.text.toList.dropWhile (· ≠ character 39)
  token.kind = .number && 2 ≤ behind.length && "bBoOdDhH".toList.contains (behind.getLastD 'x')
    && (behind.length = 2 || (behind.length = 3 && "sS".toList.contains (behind.getD 1 'x')))

def digits (token : Token) : Bool :=
  !token.text.isEmpty && (token.kind = .number || token.kind = .identifier)
    && token.text.toList.all fun digit => "0123456789abcdefABCDEF_xXzZ?".toList.contains digit

def mergeBased : ℕ → List Token → List Token
  | fuel + 1, based :: value :: rest =>
    if digitless based && digits value then
      mergeBased fuel ({ based with text := based.text ++ value.text } :: rest)
    else based :: mergeBased fuel (value :: rest)
  | _, tokens => tokens

/-- Two backticks join the tokens around them, the last of the result and the next one. -/
def concatenateTokens (environment : Environment) (invocation : Token) (stack : List String) :
    ℕ → List Token → List Token → List Token × List Diagnostic
  | 0, _, result => (result, [])
  | _ + 1, [], result => (result, [])
  | fuel + 1, token :: rest, result =>
    let ordinary := fun (_ : Unit) =>
      concatenateTokens environment invocation stack fuel rest (result ++ [token])
    match rest with
    | [] => ordinary ()
    | second :: rest =>
      if token.kind ≠ .backtick ∨ second.kind ≠ .backtick then ordinary ()
      else match rest, result.getLast? with
        | third :: behind, some last =>
          let joined := last.text ++ third.text
          let diagnose := fun (_ : Unit) =>
            let (tokens, diagnostics) :=
              concatenateTokens environment invocation stack fuel behind result
            (tokens, (⟨.error, "FSIM-SV-PP-026",
              "token concatenation produced invalid token '" ++ joined ++ "'", invocation.span,
              stack⟩ : Diagnostic) :: diagnostics)
          match environment.lex joined with
          | some [first, other, _] =>
            if first = (last.kind, last.text) ∧ other = (third.kind, third.text)
            then concatenateTokens environment invocation stack fuel behind (result ++ [third])
            else diagnose ()
          | some [first, _] =>
            if first.1 = .endOfFile then diagnose ()
            else concatenateTokens environment invocation stack fuel behind (result.dropLast ++
              [{ last with
                kind := first.1, text := joined, span := invocation.span, expansionStack := stack
                generatedText := if last.generatedText ≠ .none ∨ third.generatedText ≠ .none
                  then .fileMacroDerived else last.generatedText }])
          | _ => diagnose ()
        | _, _ => concatenateTokens environment invocation stack fuel rest result

def substituteToken (definition : Macro) (arguments : List (List Token)) (span : Span)
    (stack : List String) (token : Token) : List Token :=
  match (if token.kind = .identifier then parameterIndex definition token.text else none) with
  | some parameter =>
    (arguments[parameter]?.getD []).map fun argument => { argument with expansionStack := stack }
  | none => [{ token with span, expansionStack := stack }]

structure Rescan where
  sequence : List Token → List Token × List Diagnostic
  invocation : List Token → List Token × List Diagnostic

def wordCharacter (letter : Char) : Bool :=
  letter.isAlphanum || letter = '_' || letter = '$'

def escapeQuotes (spelling : String) : List Char :=
  spelling.toList.flatMap fun letter =>
    if letter = character 92 ∨ letter = character 34 then [character 92, letter] else [letter]

def adjacent (previous token : Token) : Bool :=
  if previous.span.source = token.span.source ∧
      previous.span.start.offset = token.span.start.offset
      ∧ previous.span.stop.offset = token.span.stop.offset
  then !((previous.text.toList.getLast?.map wordCharacter).getD false
    && (token.text.toList.head?.map wordCharacter).getD false)
  else previous.span.source = token.span.source
    && previous.span.stop.offset = token.span.start.offset

def spelledArgument : List Token → List Char
  | [] => []
  | [token] => escapeQuotes token.text
  | token :: next :: rest =>
    escapeQuotes token.text ++ (if adjacent token next then [] else [' '])
      ++ spelledArgument (next :: rest)

def derivedText (tokens : List Token) (generated : GeneratedText) : GeneratedText :=
  if tokens.any (·.generatedText ≠ .none) then .fileMacroDerived else generated

def stringifyBody (rescan : Rescan) (definition : Macro) (arguments : List (List Token))
    (span : Span) (stack : List String) :
    ℕ → List Char → List Char → GeneratedText → List Diagnostic →
      Option (List Char × GeneratedText) × List Diagnostic
  | 0, _, result, generated, diagnostics => (some (result, generated), diagnostics)
  | _ + 1, [], result, generated, diagnostics => (some (result, generated), diagnostics)
  | fuel + 1, first :: rest, result, generated, diagnostics =>
    let name := rest.takeWhile wordCharacter
    if first = character 96 then
      if rest.head? = some (character 96) then
        stringifyBody rescan definition arguments span stack fuel
          (rest.drop 1) result generated diagnostics
      else if rest.take 3 = [character 92, character 96, character 34] then
        stringifyBody rescan definition arguments span stack fuel (rest.drop 3)
          (result ++ [character 92, character 34]) generated diagnostics
      else if name.isEmpty then
        (none, diagnostics ++ [⟨.error, "FSIM-SV-PP-051",
          "special macro string contains a backtick without an identifier", span, stack⟩])
      else
        let (tokens, found) := rescan.invocation
          [⟨.backtick, "`", span, stack, .none⟩,
            ⟨.identifier, String.ofList name, span, stack, .none⟩]
        stringifyBody rescan definition arguments span stack fuel (rest.drop name.length)
          (result ++ tokens.flatMap fun token => escapeQuotes token.text)
          (derivedText tokens generated) (diagnostics ++ found)
    else if first.isAlpha || first = '_' || first = '$' then
      match parameterIndex definition (String.ofList (first :: name)) with
      | some parameter =>
        let (tokens, found) := rescan.sequence (arguments[parameter]?.getD [])
        stringifyBody rescan definition arguments span stack fuel (rest.drop name.length)
          (result ++ spelledArgument tokens) (derivedText tokens generated) (diagnostics ++ found)
      | none => stringifyBody rescan definition arguments span stack fuel (rest.drop name.length)
          (result ++ first :: name) generated diagnostics
    else stringifyBody rescan definition arguments span stack fuel rest
      (result ++ [first]) generated diagnostics

def specialString (token : Token) : Option (List Char) :=
  let spelling := token.text.toList
  if token.kind = .stringLiteral ∧ 3 ≤ spelling.length ∧
      spelling.getD (spelling.length - 2) 'x' = character 96
  then some ((spelling.drop 1).take (spelling.length - 3)) else none

def substituteReplacement (rescan : Rescan) (definition : Macro) (arguments : List (List Token))
    (span : Span) (stack : List String) : ℕ → List Token → List Token × List Diagnostic
  | 0, _ => ([], [])
  | _ + 1, [] => ([], [])
  | fuel + 1, token :: rest =>
    let ordinary := fun (found : List Diagnostic) =>
      let (tokens, diagnostics) :=
        substituteReplacement rescan definition arguments span stack fuel rest
      (substituteToken definition arguments span stack token ++ tokens, found ++ diagnostics)
    match (if token.kind = .backtick then rest.head?.bind specialString else none) with
    | none => ordinary []
    | some body =>
      match stringifyBody rescan definition arguments span stack (body.length + 1) body
        [] .none [] with
      | (none, found) => ordinary found
      | (some (result, generated), found) =>
        let (tokens, diagnostics) :=
          substituteReplacement rescan definition arguments span stack fuel (rest.drop 1)
        (⟨.stringLiteral, String.ofList ([character 34] ++ result ++ [character 34]), span, stack,
          generated⟩ :: tokens, found ++ diagnostics)

section Expansion

structure Expansion where
  tokens : List Token
  rest : List Token
  diagnostics : List Diagnostic

abbrev Expander := List String → List String → List Token → Expansion

def expandSequence (expand : Expander) (expanding stack : List String) :
    ℕ → List Token → List Token × List Diagnostic
  | 0, _ => ([], [])
  | _ + 1, [] => ([], [])
  | fuel + 1, token :: rest =>
    if startsInvocation (token :: rest) then
      let expansion :=
        expand expanding (if stack.isEmpty then token.expansionStack else stack) (token :: rest)
      let (tokens, diagnostics) := expandSequence expand expanding stack fuel expansion.rest
      (expansion.tokens ++ tokens, expansion.diagnostics ++ diagnostics)
    else
      let (tokens, diagnostics) := expandSequence expand expanding stack fuel rest
      (token :: tokens, diagnostics)

/-- The rescan before token concatenation, which keeps unknown invocations. -/
def expandKnownInvocations (macros : Macros) (expand : Expander) (expanding stack : List String) :
    ℕ → List Token → List Token × List Diagnostic
  | 0, _ => ([], [])
  | _ + 1, [] => ([], [])
  | fuel + 1, token :: rest =>
    let keep := fun (kept rest : List Token) =>
      let (tokens, diagnostics) := expandKnownInvocations macros expand expanding stack fuel rest
      (kept ++ tokens, diagnostics)
    match rest with
    | [] => keep [token] []
    | second :: behind =>
      if token.kind = .backtick ∧ second.kind = .backtick then keep [token, second] behind
      else if startsInvocation (token :: second :: behind) then
        if isKnownMacroInvocation macros (macroIdentifier second.text) then
          let expansion := expand expanding stack (token :: second :: behind)
          let (tokens, diagnostics) :=
            expandKnownInvocations macros expand expanding stack fuel expansion.rest
          (expansion.tokens ++ tokens, expansion.diagnostics ++ diagnostics)
        else keep [token, second] behind
      else keep [token] (second :: behind)

variable (environment : Environment) (macros : Macros)

def invocationArguments (definition : Macro) (name : Token) (span : Span) (stack : List String)
    (rest : List Token) : Except Diagnostic (List (List Token)) × List Token × List Diagnostic :=
  match definition.parameters with
  | none => (.ok [], rest, [])
  | some parameters =>
    let (arguments, rest, diagnostics) := parseArguments rest definition name
    (bindArguments definition parameters arguments span stack, rest, diagnostics)

def expansionFrame (definition : Macro) (span : Span) : String :=
  "macro `" ++ definition.name ++ "' defined at " ++ locationText definition.definition ++
    ", expanded at " ++ locationText span

def replacementText (rescan : Rescan) (definition : Macro) (arguments : List (List Token))
    (span : Span) (stack : List String) : List Token × List Diagnostic :=
  let (selected, found) :=
    selectReplacementConditionals environment macros definition arguments span stack
  let (substituted, diagnostics) := substituteReplacement rescan definition arguments span stack
    (selected.length + 1) selected
  (mergeBased (substituted.length + 1) substituted, found ++ diagnostics)

/-- The expansion of a defined macro; nothing is left to expand its text with at the maximum depth,
and a macro being expanded is not expanded again. -/
def expandDefinition (inner : Option Expander) (definition : Macro) (name : Token) (span : Span)
    (expanding stack : List String) (rest : List Token) : Expansion :=
  let refused : Expansion := ⟨[], rest, [⟨.error, "FSIM-SV-PP-029",
    "recursive or excessively deep expansion of macro `" ++ definition.name ++ "'",
    span, stack⟩]⟩
  match inner with
  | none => refused
  | some expand =>
    if definition.name ∈ expanding then refused
    else
      match invocationArguments definition name span stack rest with
      | (.error diagnostic, rest, diagnostics) => ⟨[], rest, diagnostics ++ [diagnostic]⟩
      | (.ok arguments, rest, diagnostics) =>
        let stack := stack ++ [expansionFrame definition span]
        let expanding := definition.name :: expanding
        let rescan : Rescan :=
          ⟨fun tokens => expandSequence expand expanding stack (tokens.length + 1) tokens,
            fun tokens =>
              let expansion := expand expanding stack tokens
              (expansion.tokens, expansion.diagnostics)⟩
        let (text, found) :=
          replacementText environment macros rescan definition arguments span stack
        let (known, knownFound) :=
          expandKnownInvocations macros expand expanding stack (text.length + 1) text
        let (joined, joinedFound) :=
          concatenateTokens environment name stack (known.length + 1) known []
        let (expanded, expandedFound) := rescan.sequence joined
        ⟨expanded, rest, diagnostics ++ found ++ knownFound ++ joinedFound ++ expandedFound⟩

def expandWith (inner : Option Expander) : Expander
  | _, _, [] => ⟨[], [], []⟩
  | _, stack, [tick] => ⟨[], [], [⟨.error, "FSIM-SV-PP-027",
      "a backtick must be followed by a macro identifier", tick.span, stack⟩]⟩
  | expanding, stack, tick :: name :: rest =>
    if name.kind ≠ .identifier then
      ⟨[], name :: rest,
        [⟨.error, "FSIM-SV-PP-027", "a backtick must be followed by a macro identifier",
        tick.span, stack⟩]⟩
    else
      let name := { name with text := macroIdentifier name.text }
      let span := cover tick.span name.span
      match expandBuiltIn environment tick name stack with
      | some (tokens, diagnostics) => ⟨tokens, rest, diagnostics⟩
      | none => match macros.find name.text with
        | none =>
            ⟨[], rest,
              [⟨.error, "FSIM-SV-PP-028", "undefined Verilog macro or compiler directive `" ++
            name.text ++ "'", span, stack⟩]⟩
        | some definition =>
          expandDefinition environment macros inner definition name span expanding stack rest

def expandInvocation : ℕ → Expander
  | 0 => expandWith environment macros none
  | depth + 1 => expandWith environment macros (some (expandInvocation depth))

def expandTokens (tokens : List Token) : List Token × List Diagnostic :=
  expandSequence (expandInvocation environment macros environment.maximumMacroExpansionDepth) [] []
    (tokens.length + 1) tokens

end Expansion

end FsimRuntime.Preprocessor

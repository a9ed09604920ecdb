import FsimRuntime.CompilationUnit

/-!
# What a root leaves to later roots

The macro table changes only together with the count of state changes, through
every directive, expansion and include. A root that reports no exported state
therefore leaves the state it found, unless it closed a conditional or a
protected envelope of an earlier root. The check of the joined output looks
back over the root only along the source line of the first token behind it.
-/

namespace FsimRuntime.Preprocessor

variable {environment : UnitEnvironment} {i : Includer} {c : Context} {state : UnitState}

/-- Without a counted change the macros are the same. -/
def Keeps (state : UnitState) (outcome : Outcome) : Prop :=
  outcome.changes = 0 → outcome.state.macros = state.macros

def IncluderKeeps (includer : Includer) : Prop :=
  ∀ context name state, Keeps state (includer context name state)

variable {o : Outcome} {first : Outcome}

theorem keeps_of_macros (h : o.state.macros = state.macros) : Keeps state o := fun _ => h

theorem keeps_of_changes (h : o.changes = 1) : Keeps state o :=
  fun hz => absurd (h.symm.trans hz) (by decide)

theorem Keeps.next {following : UnitState → Outcome} (h : Keeps state first)
    (hn : Keeps first.state (following first.state)) : Keeps state (first.next following) := by
  intro hz
  obtain ⟨hf, hs⟩ := Nat.add_eq_zero_iff.mp hz
  exact (hn hs).trans (h hf)

variable {a : List Token} {s : Environment} {name : Token} {b after : List String}
  {d t : Token} {f : ℕ}

theorem includeFile_keeps (hin : IncluderKeeps i) :
    Keeps state (includeFile environment i c a d state) := by
  unfold includeFile
  split
  · exact keeps_of_macros rfl
  · refine Keeps.next (keeps_of_macros rfl) ?_
    dsimp only
    split
    · exact keeps_of_macros rfl
    · split
      · exact keeps_of_macros rfl
      · split
        · exact keeps_of_macros rfl
        · exact hin _ _ _

theorem defineMacro_keeps : Keeps state (defineMacro s a d state) := by
  unfold defineMacro
  split
  · exact keeps_of_macros rfl
  · exact keeps_of_changes rfl

theorem nextConditional_keeps : Keeps state (nextConditional s name a state) := by
  unfold nextConditional
  split <;> exact keeps_of_macros rfl

theorem otherwiseConditional_keeps : Keeps state (otherwiseConditional name a state) := by
  unfold otherwiseConditional
  split <;> exact keeps_of_macros rfl

theorem closeConditional_keeps : Keeps state (closeConditional name a state) := by
  unfold closeConditional
  split <;> exact keeps_of_macros rfl

theorem handlePragma_keeps : Keeps state (handlePragma s t name a state) := by
  refine keeps_of_macros ?_
  have hp (k : Token) :
      (protectPragma t name k state).state.macros = state.macros := by
    unfold protectPragma
    split_ifs <;> rfl
  unfold handlePragma
  split
  · rfl
  · split
    · rfl
    · split_ifs
      · rfl
      · rfl
      · split
        · rfl
        · exact hp _

theorem keeps_ite {condition : Prop} [Decidable condition] {second : Outcome}
    (hf : Keeps state first) (hs : Keeps state second) :
    Keeps state (if condition then first else second) := by
  split
  · exact hf
  · exact hs

section
variable (hin : IncluderKeeps i)
include hin

theorem handleDirective_keeps : Keeps state (handleDirective environment i c t name a state) := by
  refine keeps_ite (keeps_of_macros rfl) (keeps_ite nextConditional_keeps
    (keeps_ite otherwiseConditional_keeps (keeps_ite closeConditional_keeps
      (keeps_ite (keeps_of_macros rfl) (keeps_ite handlePragma_keeps (keeps_ite defineMacro_keeps
        (keeps_ite ?_ (keeps_ite ?_ (keeps_ite (includeFile_keeps hin) ?_)))))))))
  · split
    · exact keeps_of_macros rfl
    · exact keeps_of_changes rfl
  · split
    · exact keeps_of_macros rfl
    · exact keeps_of_changes rfl
  · split
    · exact keeps_of_macros rfl
    · exact keeps_ite (keeps_of_changes rfl) (keeps_of_macros rfl)

theorem emitExpanded_keeps {t : List Token} :
    Keeps state (emitExpanded environment i c f t state) := by
  induction f generalizing t state with
  | zero => exact keeps_of_macros rfl
  | succ f ih =>
    match t with
    | [] | [_] | [_, _] => exact keeps_of_macros rfl
    | tick :: name :: argument :: rest =>
      exact keeps_ite ((includeFile_keeps hin).next ih) (Keeps.next (keeps_of_macros rfl) ih)

theorem processToken_keeps {token : Token} {rest : List Token} {mapping : SourceMapping} :
    Keeps state (processToken environment i c token rest mapping state).outcome := by
  have silent {tokens : List Token} {diagnostics : List Diagnostic} :
      Keeps state { state, tokens, diagnostics } := keeps_of_macros rfl
  unfold processToken
  dsimp only
  split
  · split_ifs
    · exact handleDirective_keeps hin
    · exact silent
    · exact silent
    · exact handleDirective_keeps hin
    · exact silent
    · exact silent.next (emitExpanded_keeps hin)
    · exact silent
    · exact silent
    · exact silent
  · exact silent

theorem processTokens_keeps {t : List Token}
    {m : SourceMapping} : Keeps state (processTokens environment i c f t m state).1 := by
  induction f generalizing t m state with
  | zero => exact keeps_of_macros rfl
  | succ f ih =>
    cases t with
    | nil => exact keeps_of_macros rfl
    | cons token r =>
      rw [processTokens]
      split
      · exact keeps_of_macros rfl
      · exact (processToken_keeps hin).next ih

end

theorem endPayload_macros {name : String} {size : ℕ} :
    (state.endPayload name size).1.macros = state.macros := by
  unfold UnitState.endPayload
  split
  · split_ifs <;> rfl
  · rfl

theorem processContents_keeps (hin : IncluderKeeps i) {name : String}
    {contents : List Char} : Keeps state (processContents environment i c name contents state) := by
  intro hz
  simp only [processContents] at hz ⊢
  rw [endPayload_macros]
  split at hz
  · rfl
  · exact processTokens_keeps hin hz

theorem processFile_keeps {d : ℕ} : IncluderKeeps (processFile environment d) := by
  induction d with
  | zero => exact fun _ _ _ => keeps_of_macros rfl
  | succ d ih =>
    intro c name state
    unfold processFile
    split_ifs
    · exact keeps_of_macros rfl
    · split
      · exact keeps_of_macros rfl
      · exact processContents_keeps ih

theorem processRoot_state {p : String}
    (h : (processRoot environment state p).1.exportsState = false) :
    (processRoot environment state p).2 = ⟨state.macros, [], none⟩ := by
  simp only [processRoot, Bool.or_eq_false_iff, Bool.not_eq_false', List.isEmpty_iff,
    decide_eq_false_iff_not, not_not, Option.isSome_eq_false_iff, Option.isNone_iff_eq_none]
      at h ⊢
  obtain ⟨⟨⟨hch, hc⟩, he⟩, _⟩ := h
  have hm := processFile_keeps _ _ _ hch
  generalize processFile environment (environment.maximumIncludeDepth + 1)
    ⟨[], [], none⟩ p state = outcome at hm hc he
  obtain ⟨⟨macros, conditionals, envelope⟩, _, _, _, _⟩ := outcome
  cases hm
  cases hc
  cases he
  rfl

theorem processRoots_cons {p : String} {rest : List String} :
    processRoots environment state (p :: rest) =
      ((processRoot environment state p).1 ::
          (processRoots environment (processRoot environment state p).2 rest).1,
        (processRoots environment (processRoot environment state p).2 rest).2) := rfl

theorem processRoots_append : processRoots environment state (b ++ after) =
      ((processRoots environment state b).1 ++
          (processRoots environment (processRoots environment state b).2 after).1,
        (processRoots environment (processRoots environment state b).2 after).2) := by
  induction b generalizing state with
  | nil => rfl
  | cons p r ih => simp [processRoots, ih]

theorem processRoots_length {p : List String} :
    (processRoots environment state p).1.length = p.length := by
  induction p generalizing state with
  | nil => rfl
  | cons pa r ih => simp [processRoots, ih]

/-- The state in which the roots behind some roots are reached. -/
def reachedState (environment : UnitEnvironment) (macros : Macros) (before : List String) :
    UnitState :=
  (processRoots environment ⟨macros, [], none⟩ before).2

variable {m : Macros}

theorem preprocessUnit_drop : (preprocessUnit environment m (b ++ after)).roots.drop b.length =
      (processRoots environment (reachedState environment m b) after).1 := by
  simp only [preprocessUnit, processRoots_append]
  rw [List.drop_left' processRoots_length]
  rfl

theorem preprocessUnit_open : (preprocessUnit environment m (b ++ after)).openEnd =
      openDiagnostics (processRoots environment (reachedState environment m b) after).2 := by
  simp only [preprocessUnit, processRoots_append]
  rfl

section Revision

theorem isTimescaleArgument_congr {candidate other : Token} (h : onLineOf other candidate = true)
    (following : Token) (earlier : List Token) :
    isTimescaleArgument candidate following earlier =
    isTimescaleArgument other following earlier := by
  induction earlier generalizing following with
  | nil => rfl
  | cons token earlier ih =>
    have hline : onLineOf token candidate = onLineOf token other := by
      simp only [onLineOf, Bool.and_eq_true, decide_eq_true_eq] at h ⊢
      rw [h.1, h.2]
    simp only [isTimescaleArgument, hline, ih]

/-- Looking back from a token behind `first`, what is before `first` is seen only as from there. -/
theorem isTimescaleArgument_append {first : Token} {seen seen' : List Token}
    (h : isTimescaleArgument first first seen = isTimescaleArgument first first seen')
    (candidate following : Token) (between : List Token) :
    isTimescaleArgument candidate following (between ++ first :: seen) =
      isTimescaleArgument candidate following (between ++ first :: seen') := by
  induction between generalizing following with
  | nil =>
    simp only [List.nil_append, isTimescaleArgument]
    split_ifs with hline
    · rfl
    · rfl
    · have hsame : onLineOf first candidate = true := by simpa using hline
      rw [isTimescaleArgument_congr hsame, isTimescaleArgument_congr hsame, h]
  | cons token between ih => simp only [List.cons_append, isTimescaleArgument, ih]

/-- The tokens look the same way back over what lies before them. -/
def LooksBackSame (tokens seen seen' : List Token) : Prop :=
  ∀ first ∈ tokens.head?,
    isTimescaleArgument first first seen = isTimescaleArgument first first seen'

theorem tokenRevision_congr {seen seen' : List Token} (token : Token) (later : List Token)
    (h : isTimescaleArgument token token seen = isTimescaleArgument token token seen') :
    tokenRevision environment seen token later = tokenRevision environment seen' token later := by
  have htime : isTimeLiteral seen token later = isTimeLiteral seen' token later := by
    cases later <;> simp [isTimeLiteral, h]
  simp only [tokenRevision, htime]

theorem rootRevision_congr (environment : UnitEnvironment) {first : Token} {seen seen' : List Token}
    (h : isTimescaleArgument first first seen = isTimescaleArgument first first seen')
    (behind tokens between : List Token) :
    rootRevision environment behind (between ++ first :: seen) tokens =
      rootRevision environment behind (between ++ first :: seen') tokens := by
  induction tokens generalizing between with
  | nil => rfl
  | cons token tokens ih =>
    have hrest := ih (token :: between)
    rw [rootRevision, rootRevision, tokenRevision_congr _ _ (isTimescaleArgument_append h ..)]
    exact congrArg _ hrest

theorem validateLexicalRevision_congr (environment : UnitEnvironment) {first : Token}
    {seen seen' : List Token}
    (h : isTimescaleArgument first first seen = isTimescaleArgument first first seen')
    (between : List Token) (roots : List PreprocessedRoot) :
    validateLexicalRevision environment (between ++ first :: seen) roots =
      validateLexicalRevision environment (between ++ first :: seen') roots := by
  induction roots generalizing between with
  | nil => rfl
  | cons root roots ih =>
    have hrest := ih (root.tokens.reverse ++ between)
    rw [List.append_assoc, List.append_assoc] at hrest
    rw [validateLexicalRevision, validateLexicalRevision, rootRevision_congr environment h, hrest]

theorem validateLexicalRevision_behind {seen seen' : List Token} (roots : List PreprocessedRoot)
    (h : LooksBackSame (roots.flatMap (·.tokens)) seen seen') :
    validateLexicalRevision environment seen roots =
      validateLexicalRevision environment seen' roots := by
  induction roots with
  | nil => rfl
  | cons root roots ih =>
    cases htokens : root.tokens with
    | nil =>
      have hrest := ih (by simpa [htokens] using h)
      simp only [validateLexicalRevision, htokens, rootRevision, List.reverse_nil,
        List.nil_append, hrest]
    | cons first rest =>
      have hfirst : isTimescaleArgument first first seen = isTimescaleArgument first first seen' :=
        h first (by simp [htokens])
      have hroot := rootRevision_congr environment hfirst (roots.flatMap (·.tokens)) rest []
      have hroots := validateLexicalRevision_congr environment hfirst rest.reverse roots
      simp only [validateLexicalRevision, htokens, rootRevision, List.reverse_cons,
        List.append_assoc, List.singleton_append]
      rw [tokenRevision_congr _ _ hfirst, hroots]
      exact congrArg (fun diagnostics => (_ ++ diagnostics) :: _) hroot

theorem validateLexicalRevision_append (environment : UnitEnvironment) (earlier : List Token)
    (roots later : List PreprocessedRoot) :
    (validateLexicalRevision environment earlier (roots ++ later)).drop roots.length =
      validateLexicalRevision environment
      ((roots.flatMap (·.tokens)).reverse ++ earlier) later := by
  induction roots generalizing earlier with
  | nil => rfl
  | cons root roots ih =>
    simp only [List.cons_append, validateLexicalRevision, List.length_cons, List.drop_succ_cons, ih]
    simp

end Revision

/-- The output before the roots behind some roots, backwards. -/
def reachedOutput (environment : UnitEnvironment) (macros : Macros) (before : List String) :
    List Token :=
  ((processRoots environment ⟨macros, [], none⟩ before).1.flatMap (·.tokens)).reverse

theorem preprocessUnit_revision :
    (preprocessUnit environment m (b ++ after)).revision.drop b.length =
    validateLexicalRevision environment (reachedOutput environment m b)
      (processRoots environment (reachedState environment m b) after).1 := by
  simp only [preprocessUnit, processRoots_append]
  have hdrop := validateLexicalRevision_append environment []
    (processRoots environment ⟨m, [], none⟩ b).1
    (processRoots environment (processRoots environment ⟨m, [], none⟩ b).2 after).1
  rw [processRoots_length] at hdrop
  simpa [reachedOutput, reachedState] using hdrop

theorem validateLexicalRevision_late
    (h : Revision.systemVerilog2005.rank ≤ environment.revision.rank)
    (earlier : List Token) (roots : List PreprocessedRoot) :
    validateLexicalRevision environment earlier roots = roots.map fun _ => [] := by
  have hearly : ∀ feature token,
      requireStandard environment.toEnvironment feature .verilog2001 token = none :=
    fun _ _ => if_pos (Nat.le_trans (by decide) h)
  have hlate : ∀ feature token,
      requireStandard environment.toEnvironment feature .systemVerilog2005 token = none :=
    fun _ _ => if_pos h
  have htoken : ∀ earlier token later, tokenRevision environment earlier token later = [] := by
    intro earlier token later
    simp [tokenRevision, hearly, hlate]
  have hroot : ∀ behind tokens earlier, rootRevision environment behind earlier tokens = [] := by
    intro behind tokens
    induction tokens with
    | nil => exact fun _ => rfl
    | cons token tokens ih => simp [rootRevision, htoken, ih]
  induction roots generalizing earlier with
  | nil => rfl
  | cons root roots ih => simp [validateLexicalRevision, hroot, ih]

/-- The check of the output looks back from the later roots in the same way with the root and
without it. -/
def RevisionUnaffected (environment : UnitEnvironment) (macros : Macros) (before : List String)
    (root : String) (after : List String) : Prop :=
  let reached := reachedState environment macros before
  Revision.systemVerilog2005.rank ≤ environment.revision.rank ∨
    LooksBackSame ((processRoots environment reached after).1.flatMap (·.tokens))
      ((processRoot environment reached root).1.tokens.reverse ++
        reachedOutput environment macros before)
      (reachedOutput environment macros before)

theorem RevisionUnaffected.validate {macros : Macros} {before after : List String} {root : String}
    (h : RevisionUnaffected environment macros before root after) :
    validateLexicalRevision environment
        ((processRoot environment (reachedState environment macros before) root).1.tokens.reverse ++
          reachedOutput environment macros before)
        (processRoots environment (reachedState environment macros before) after).1 =
      validateLexicalRevision environment (reachedOutput environment macros before)
        (processRoots environment (reachedState environment macros before) after).1 := by
  rcases h with hlate | hsame
  · rw [validateLexicalRevision_late hlate, validateLexicalRevision_late hlate]
  · exact validateLexicalRevision_behind _ hsame

def rootToken (kind : TokenKind) (text : String) : Token :=
  ⟨kind, text, ⟨"unit.sv", ⟨1, 1, 0⟩, ⟨1, 1, 0⟩, ""⟩, [], .none⟩

def threeFiles (name : String) : Option (List Token) :=
  if name = "open.sv" then some [rootToken .backtick "`", rootToken .identifier "ifdef",
    rootToken .identifier "X", rootToken .endOfFile ""]
  else if name = "close.sv" then some [rootToken .backtick "`", rootToken .identifier "endif",
    rootToken .endOfFile ""]
  else if name = "module.sv" then some [rootToken .identifier "module", rootToken .identifier "m",
    rootToken .other ";", rootToken .number "5", rootToken .identifier "ns",
    rootToken .identifier "endmodule", rootToken .endOfFile ""]
  else none

def threeFilesEnvironment : UnitEnvironment where
  maximumMacroExpansionDepth := 8
  revision := .verilog2005
  revisionText _ := "1364-2005"
  lex _ := none
  conditionExpression _ _ _ := (none, [])
  maximumIncludeDepth := 4
  readFile name := (threeFiles name).map fun _ => []
  lexFile name _ := ((threeFiles name).getD [], [])
  resolveInclude _ _ _ := none

end FsimRuntime.Preprocessor

/-
# All ways into the program agree

The stages are put together three times. `parseSource` starts the parser with the
diagnostics of the lexer in its log, `run` starts it with an empty log and joins the two
lists at the end, and the command line tests for strict mode by itself. All of them
come to one tree, one list of diagnostics and one output.

The reason is that the parser writes its log and never reads it. What was recorded before
stays where it was, in front of the new reports, and neither the tree nor the new reports
depend on it (`ofCursor_behind`). This is the case of equal tokens of the argument on two
runs side by side (`ofTokens_same`).

Key theorems: `ofCursor_behind`, `parseSource_eq_run`, `transpileStrict_eq_ok`,
`transpileStrict_eq_error`, `runOptions_refused`, `runOptions_printed`, `entry_points_agree`.
-/
import MiniC.CommandLine
import MiniC.Proofs.Trivia

namespace MiniC

/-! ### Earlier diagnostics -/

/-- The parser makes the same tree and the same reports whatever was recorded before, and
puts its reports behind it. -/
theorem ofCursor_behind (tokens : List Token) (earlier : List Diagnostic) :
    Parsing.ofCursor (.ofTokens tokens earlier) =
      ⟨(parseTokens tokens).tree, earlier ++ (parseTokens tokens).diagnostics⟩ := by
  obtain ⟨tree, reports, -, behind, alone⟩ := @ofTokens_same tokens tokens earlier [] rfl
  rw [parseTokens, behind, alone]
  rfl

theorem parseTokens_stage (tokens : List Token) : ∀ d ∈ (parseTokens tokens).diagnostics, d.stage = .parser := by
  obtain ⟨tree, reports, parser, alone, -⟩ := @ofTokens_same tokens tokens [] [] rfl
  rw [parseTokens, alone]
  exact parser

theorem tokenize_stage (source : String) : ∀ d ∈ (tokenize source).diagnostics, d.stage = .lexer := by
  rw [tokenize_diagnostics]
  intro d hd
  obtain ⟨p, -, found⟩ := List.mem_filterMap.mp hd
  obtain ⟨problem, -, rfl⟩ := Option.map_eq_some_iff.mp found
  rfl

/-- The parser on a source text makes the tree and the diagnostics of a run. -/
theorem parseSource_eq_run (source : String) (dialect : Dialect) :
    parseSource source = ⟨(run source dialect).tree, (run source dialect).diagnostics⟩ :=
  ofCursor_behind (tokenize source).tokens (tokenize source).diagnostics

/-! ### Strict runs -/

theorem transpileStrict_eq_ok {source output : String} {dialect : Dialect} :
    transpileStrict source dialect = .ok output ↔
      (run source dialect).diagnostics = [] ∧ output = transpile source dialect := by
  unfold transpileStrict transpile
  by_cases clean : (run source dialect).diagnostics = []
  · simp [clean, eq_comm]
  · simp [clean]

theorem transpileStrict_eq_error {source : String} {dialect : Dialect} {ds : List Diagnostic} :
    transpileStrict source dialect = .error ds ↔ ds ≠ [] ∧ ds = (run source dialect).diagnostics := by
  unfold transpileStrict
  by_cases clean : (run source dialect).diagnostics = []
  · simp [clean]
  · simp only [clean, List.isEmpty_iff, if_false, Except.error.injEq]
    constructor
    · rintro rfl
      exact ⟨clean, rfl⟩
    · rintro ⟨-, rfl⟩
      rfl

/-! ### The command line -/

section

variable {options : Options} {source : String}

theorem commandLine_text {args : List String} {files : String → InputFile} (program : String)
    (parsed : parseArguments args = .ok options) (found : files options.input = .text source) :
    commandLine program args files = runOptions options source := by
  unfold commandLine
  rw [parsed]
  dsimp only
  rw [found]

/-- In strict mode a text with diagnostics is refused. -/
theorem runOptions_refused (strict : options.strict) (faulty : (run source options.dialect).diagnostics ≠ []) :
    (runOptions options source).stdout = "" ∧ (runOptions options source).ending = .exit 1 := by
  have refused : (options.strict && !(run source options.dialect).diagnostics.isEmpty) = true := by
    simp [strict, faulty]
  unfold runOptions
  dsimp only
  rw [if_pos refused]
  exact ⟨rfl, rfl⟩

/-- Otherwise its output is written, if it is asked for. -/
theorem runOptions_printed (print : options.print)
    (accepted : ¬(options.strict ∧ (run source options.dialect).diagnostics ≠ [])) :
    (runOptions options source).stdout = transpile source options.dialect ∧
      (runOptions options source).ending = .exit 0 := by
  have goesOn : ¬(options.strict && !(run source options.dialect).diagnostics.isEmpty) = true := by
    simpa using accepted
  unfold runOptions
  dsimp only
  rw [if_neg goesOn, if_pos print]
  exact ⟨rfl, rfl⟩

end

/-- **All ways into the program agree** on a source text in a dialect. -/
theorem entry_points_agree (source : String) (dialect : Dialect) :
    -- the parser on the text makes the tree and the diagnostics of a run, the lexer's first
    parseSource source = ⟨(run source dialect).tree, (run source dialect).diagnostics⟩ ∧
    (run source dialect).diagnostics =
      (tokenize source).diagnostics ++ (parseTokens (tokenize source).tokens).diagnostics ∧
    (∀ d ∈ (tokenize source).diagnostics, d.stage = .lexer) ∧
    (∀ d ∈ (parseTokens (tokenize source).tokens).diagnostics, d.stage = .parser) ∧
    -- it leaves what was recorded before as it was, and does not depend on it
    (∀ tokens earlier, Parsing.ofCursor (.ofTokens tokens earlier) =
      ⟨(parseTokens tokens).tree, earlier ++ (parseTokens tokens).diagnostics⟩) ∧
    -- a strict run gives the output if there are no diagnostics, and the diagnostics otherwise
    (∀ output, transpileStrict source dialect = .ok output ↔
      (run source dialect).diagnostics = [] ∧ output = transpile source dialect) ∧
    (∀ ds, transpileStrict source dialect = .error ds ↔ ds ≠ [] ∧ ds = (run source dialect).diagnostics) ∧
    -- the command line prints the output, except in strict mode where there are diagnostics
    ∀ program args files options, parseArguments args = .ok options → options.dialect = dialect → options.print →
      files options.input = .text source →
      (¬(options.strict ∧ (run source dialect).diagnostics ≠ []) →
        (commandLine program args files).stdout = transpile source dialect ∧
          (commandLine program args files).ending = .exit 0) ∧
      (options.strict ∧ (run source dialect).diagnostics ≠ [] →
        (commandLine program args files).stdout = "" ∧ (commandLine program args files).ending = .exit 1) := by
  refine ⟨parseSource_eq_run source dialect, rfl, tokenize_stage source, parseTokens_stage _, ofCursor_behind,
    fun _ => transpileStrict_eq_ok, fun _ => transpileStrict_eq_error, ?_⟩
  intro program args files options parsed same print found
  subst same
  rw [commandLine_text program parsed found]
  exact ⟨runOptions_printed print, fun ⟨strict, faulty⟩ => runOptions_refused strict faulty⟩

/-- In strict mode a text without faults is printed, and one with two faults is refused. -/
theorem entry_points_agree_strict :
    ((commandLine "ctrans" ["x.c", "--python", "--print", "--strict"] fun _ => .text "int x;").stdout = "x = 0\n" ∧
      (commandLine "ctrans" ["x.c", "--python", "--print", "--strict"] fun _ => .text "int x;").ending = .exit 0) ∧
    ((parseSource "int x = @;").diagnostics.map Diagnostic.stage = [.lexer, .parser] ∧
      transpileStrict "int x = @;" .python = .error (parseSource "int x = @;").diagnostics ∧
      (commandLine "ctrans" ["x.c", "--python", "--print", "--strict"] fun _ => .text "int x = @;").stdout = "") := by
  have parsed : parseArguments ["x.c", "--python", "--print", "--strict"] = .ok ⟨"x.c", .python, true, true⟩ := rfl
  have clean : (run "int x;" .python).diagnostics = [] := by decide +kernel
  have faulty : (run "int x = @;" .python).diagnostics ≠ [] := by decide +kernel
  obtain ⟨-, -, -, -, -, -, -, printing⟩ := entry_points_agree "int x;" .python
  obtain ⟨same, -, -, -, -, -, strict, refusing⟩ := entry_points_agree "int x = @;" .python
  have printed := (printing "ctrans" _ (fun _ => .text "int x;") _ parsed rfl rfl rfl).1 fun h => h.2 clean
  have refused := (refusing "ctrans" _ (fun _ => .text "int x = @;") _ parsed rfl rfl rfl).2 ⟨rfl, faulty⟩
  refine ⟨⟨printed.1.trans (by decide +kernel), printed.2⟩, by decide +kernel, ?_, refused.1⟩
  rw [same]
  exact (strict _).mpr ⟨faulty, rfl⟩

end MiniC

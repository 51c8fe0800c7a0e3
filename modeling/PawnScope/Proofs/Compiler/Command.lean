import PawnScope.Compiler.Command
import PawnScope.Proofs.Path.Naming
/-!
The command that compiles a file. It is built unless the configuration or the input has a problem, and then
the first problem is reported: `build_eq_error_iff`. The file that it writes has the stem of the input and
its own extension: `output_of_build`, in the directory of the input if it belongs there: `output_beside`.
And its arguments say everything that it was made from: `arguments_injective`.
-/

namespace PawnScope.CompilerCommand

open PawnScope.Path (IsName)

variable {config config' : CompilerConfig} {input input' : Path} {root root' : Option Path}
  {command command' : CompilerCommand} {failure : Failure}

/-! ## Problems -/

/-- What keeps a file from being compiled, in the order in which it is looked for. -/
def problems (config : CompilerConfig) (input : Path) : List Failure :=
  (if config.executable.text = [] then [.noExecutable] else []) ++
    (if input.stem? = none then [.noInputName input] else []) ++
      if config.outputPlace = .directory ∧ config.outputPath.text = [] then [.noOutputPath] else []

/-- A command fails with the first problem, and only with that. -/
theorem build_eq_error_iff :
    build config input root = .error failure ↔ (problems config input).head? = some failure := by
  have thrown {other : Failure} : (throw other : Except Failure CompilerCommand) = .error failure ↔
      other = failure := by
    rw [show (throw other : Except Failure CompilerCommand) = .error other from rfl, Except.error.injEq]
  unfold build problems outputDirectory
  cases executable : config.executable.text with
  | nil => exact thrown.trans (by simp)
  | cons c rest =>
    cases stem : input.stem? with
    | none => exact thrown.trans (by simp)
    | some stem =>
      cases place : config.outputPlace with
      | besideSource => simp
      | directory => cases output : config.outputPath.text <;> simp

theorem exists_build_iff :
    (∃ command, build config input root = .ok command) ↔ problems config input = [] := by
  constructor
  · rintro ⟨command, built⟩
    refine List.head?_eq_none_iff.mp (Option.eq_none_iff_forall_ne_some.mpr fun failure first => ?_)
    rw [build_eq_error_iff.mpr first] at built
    contradiction
  · intro fine
    cases built : build config input root with
    | ok command => exact ⟨command, rfl⟩
    | error failure =>
      have first := build_eq_error_iff.mp built
      rw [fine] at first
      contradiction

/-- The message of every problem says that the settings of the compiler are to blame. -/
theorem message_of_build (failed : build config input root = .error failure) :
    Failure.invalidCompiler <+: failure.message := by
  have found := List.mem_of_head? (build_eq_error_iff.mp failed)
  simp only [problems, List.mem_append, List.mem_ite_nil_right, List.mem_singleton] at found
  rcases found with (⟨-, rfl⟩ | ⟨-, rfl⟩) | ⟨-, rfl⟩ <;> exact List.prefix_append _ _

/-! ## What is built -/

/-- A command that is built is made from the stem of the input and the directory for the output. -/
theorem of_build (built : build config input root = .ok command) :
    ∃ stem directory, input.stem? = some stem ∧
      outputDirectory config input ⟨root, some input⟩ = .ok directory ∧
      command.output = directory.join ⟨stem ++ outputExtension⟩ ∧
      command.arguments = quoted input :: (config.options ++
        ((config.includePaths.map (PathContext.expandPath ⟨root, some input⟩)).map
            (fun path => '-' :: 'i' :: quoted path) ++ ['-' :: 'o' :: quoted command.output])) := by
  unfold build at built
  dsimp only at built
  split at built
  case isTrue => cases built
  case isFalse =>
    split at built
    case h_1 => cases built
    case h_2 stem found =>
      cases directed : outputDirectory config input ⟨root, some input⟩ with
      | error failure =>
        rw [directed] at built
        contradiction
      | ok directory =>
        rw [directed] at built
        cases built
        exact ⟨stem, directory, found, rfl, rfl, by simp [Function.comp_def]⟩

theorem isName_output {stem : Text} (filled : stem ≠ []) (apart : '/' ∉ stem) :
    IsName (stem ++ outputExtension) := by
  obtain ⟨c, rest, rfl⟩ := List.exists_cons_of_ne_nil filled
  have long : 3 < (c :: rest ++ outputExtension).length := by
    simp [outputExtension]
  refine ⟨⟨?_, ?_⟩, ?_⟩
  · rw [List.mem_append]
    exact not_or.mpr ⟨apart, by decide⟩
  · rw [Path.isInert, Bool.or_eq_false_iff]
    constructor
    · simp
    · exact beq_eq_false_iff_ne.mpr fun same => by simp [same] at long
  · exact fun same => by simp [same, Path.up] at long

/--
The output is a file of the output directory, with the stem of the input. Whatever extension the input
has, that of the output is its own.
-/
theorem output_of_build (built : build config input root = .ok command) :
    (∃ directory, outputDirectory config input ⟨root, some input⟩ = .ok directory ∧
      command.output.isRooted = directory.isRooted ∧
      command.output.segments.dropLast = directory.segments) ∧
    command.output.stem? = input.stem? ∧ command.output.extension? = some "amxx".toList := by
  obtain ⟨stem, directory, found, directed, output, -⟩ := of_build built
  obtain ⟨name, named, cut⟩ := Option.map_eq_some_iff.mp found
  have given := Path.isName_of_fileName? named
  obtain ⟨whole, filled⟩ := Path.append_of_cutName given.ne_nil (Prod.ext cut rfl)
  have apart : '/' ∉ stem := fun member =>
    given.segment.1 (whole ▸ List.mem_append_left _ member)
  have written := isName_output filled apart
  have fileName : command.output.fileName? = some (stem ++ outputExtension) := by
    rw [output, Path.fileName?_join written]
  have parts : Path.cutName (stem ++ outputExtension) = (stem, some "amxx".toList) :=
    Path.cutName_append filled (by decide)
  refine ⟨⟨directory, directed, ?_, ?_⟩, ?_, ?_⟩
  · rw [output, Path.isRooted_join written.segment.1]
  · rw [output, Path.segments_join written.segment, List.dropLast_concat]
  · unfold Path.stem?
    rw [fileName, Option.map_some, parts, ← found]
    rfl
  · unfold Path.extension?
    rw [fileName, Option.bind_some, parts]

theorem segments_directoryOf (path : Path) : (directoryOf path).segments = path.segments.dropLast := by
  unfold directoryOf
  cases found : path.parent? with
  | some parent => exact Path.segments_parent? found
  | none =>
    rw [Path.segments_of_parent?_eq_none found]
    rfl

/-- Beside the source, the output differs from the input in its last segment alone. -/
theorem output_beside (built : build config input root = .ok command)
    (beside : config.outputPlace = .besideSource) :
    command.output.segments.dropLast = input.segments.dropLast := by
  obtain ⟨⟨directory, directed, -, segments⟩, -⟩ := output_of_build built
  unfold outputDirectory at directed
  rw [beside] at directed
  rw [segments, ← Except.ok.inj directed, segments_directoryOf]

/-! ## Arguments -/

theorem quoted_injective : Function.Injective quoted := by
  intro path other same
  unfold quoted at same
  obtain ⟨text⟩ := path
  obtain ⟨text'⟩ := other
  simpa using same

/--
Two commands with the same arguments, of which as many are options, compile the same file with the same
options and the same include directories, and write the same file.
-/
theorem arguments_injective (built : build config input root = .ok command)
    (built' : build config' input' root' = .ok command') (same : command.arguments = command'.arguments)
    (options : config.options.length = config'.options.length) :
    input = input' ∧ config.options = config'.options ∧
      config.includePaths.map (PathContext.expandPath ⟨root, some input⟩) =
        config'.includePaths.map (PathContext.expandPath ⟨root', some input'⟩) ∧
      command.output = command'.output := by
  obtain ⟨-, -, -, -, -, arguments⟩ := of_build built
  obtain ⟨-, -, -, -, -, arguments'⟩ := of_build built'
  rw [arguments, arguments', List.cons.injEq] at same
  obtain ⟨inputs, same⟩ := same
  obtain ⟨optionsEq, same⟩ := List.append_inj same options
  obtain ⟨includes, outputs⟩ := List.append_inj' same rfl
  refine ⟨quoted_injective inputs, optionsEq, ?_, ?_⟩
  · refine List.map_injective_iff.mpr (fun path other flags => ?_) includes
    exact quoted_injective (by simpa using flags)
  · exact quoted_injective (by simpa using outputs)

end PawnScope.CompilerCommand

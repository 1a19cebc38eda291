import Mathlib.Data.List.Forall2
import HeaderAudit.CommandLine.Program
import HeaderAudit.Proofs.CommandLine.Gathered

namespace HeaderAudit

open GivenOption

section

variable {item : Type}

/-- The value of an option that may be given once, or else the standard one. -/
def Chooses (means : List UInt8 → item → Prop) (values : List (List UInt8))
    (standard chosen : item) : Prop :=
  (values = [] ∧ chosen = standard) ∨
    ∃ value, values = [value] ∧ means value chosen

/-- The values of an option that may be repeated, or else the standard ones. -/
def ChoosesAll (means : List UInt8 → item → Prop)
    (values : List (List UInt8)) (standard chosen : List item) : Prop :=
  (values = [] ∧ chosen = standard) ∨
    (values ≠ [] ∧ List.Forall₂ means values chosen)

end

/-- The settings and the format that a list of options asks for. -/
structure Configures (given : List GivenOption) (settings : Settings)
    (format : Format) : Prop where
  root :
    Chooses NamesPath (valuesOf .root given) Settings.standard.root
      settings.root
  includeDirs :
    ChoosesAll NamesPath (valuesOf .includeDir given)
      Settings.standard.includeDirs settings.includeDirs
  includeFiles :
    ChoosesAll NamesPath (valuesOf .includeFile given)
      Settings.standard.includeFiles settings.includeFiles
  exclude :
    ChoosesAll SpellsText (valuesOf .exclude given) Settings.standard.exclude
      settings.exclude
  followLinks :
    settings.followLinks =
      (given.contains .followLinks || Settings.standard.followLinks)
  maxDepth :
    Chooses WritesDepth (valuesOf .maxDepth given) Settings.standard.maxDepth
      settings.maxDepth
  format : Chooses NamesFormat (valuesOf .format given) .human format

/-- How verbose the log is to be. -/
def GivenOption.verbosityOf (given : List GivenOption) : Nat :=
  given.foldl (fun total one => total + one.verbosity) 0

/-- A run with the report in one of its forms. -/
def Program.runAs (format : Format) (tree : FileTree) (settings : Settings)
    (sink : Sink) : ProgramResult :=
  match format with
  | .human => runHuman tree settings sink
  | .json => runJson tree settings sink

namespace Options

section

variable {item : Type} {read : List UInt8 → Option item}
  {means : List UInt8 → item → Prop} {values : List (List UInt8)}

theorem Reads.chooses_iff
    (reads : Reads read means) (short : values.length ≤ 1)
    (accepted : ∀ value ∈ values, ∃ item, means value item)
    (standard chosen : item) :
    Chooses means values standard chosen ↔
      (values.head?.bind read).getD standard = chosen := by
  match values, short with
  | [], _ => simp [Chooses, eq_comm]
  | [value], _ =>
      obtain ⟨item, meaning⟩ := accepted value List.mem_cons_self
      have found := (reads value item).2 meaning
      have same : means value chosen ↔ item = chosen := by
        rw [← reads, found, Option.some.injEq]
      simp [Chooses, found, same]

theorem Reads.forall₂_iff
    (reads : Reads read means)
    (accepted : ∀ value ∈ values, ∃ item, means value item) :
    ∀ chosen,
      List.Forall₂ means values chosen ↔ values.filterMap read = chosen := by
  induction values with
  | nil =>
      intro chosen
      rw [List.forall₂_nil_left_iff, List.filterMap_nil]
      exact eq_comm
  | cons value rest inductionHypothesis =>
      intro chosen
      obtain ⟨⟨item, meaning⟩, restAccepted⟩ := List.forall_mem_cons.1 accepted
      have found := (reads value item).2 meaning
      rw [List.forall₂_cons_left_iff, List.filterMap_cons_some found]
      constructor
      · rintro ⟨other, later, otherMeaning, meanings, rfl⟩
        have otherFound := (reads value other).2 otherMeaning
        rw [found] at otherFound
        cases otherFound
        rw [(inductionHypothesis restAccepted later).1 meanings]
      · rintro rfl
        exact
          ⟨item, _, meaning, (inductionHypothesis restAccepted _).2 rfl, rfl⟩

theorem Reads.choosesAll_iff
    (reads : Reads read means)
    (accepted : ∀ value ∈ values, ∃ item, means value item)
    (standard chosen : List item) :
    ChoosesAll means values standard chosen ↔
      (if (values.filterMap read).isEmpty then standard
        else values.filterMap read) = chosen := by
  rw [ChoosesAll, reads.forall₂_iff accepted]
  cases values with
  | nil => simp [eq_comm]
  | cons value rest =>
      obtain ⟨item, meaning⟩ := accepted value List.mem_cons_self
      have found := (reads value item).2 meaning
      simp [List.filterMap_cons_some found]

end

theorem verbosity_gathered (given : List GivenOption) :
    (gathered given).verbosity = verbosityOf given :=
  rfl

/-- A sound list asks for what it gathers. -/
theorem configures_iff
    {given : List GivenOption} (sound : IsSound given) {settings : Settings}
    {format : Format} :
    Configures given settings format ↔
      (gathered given).settings = settings ∧
        (gathered given).format.getD .human = format := by
  have root :=
    pathOf?_reads.chooses_iff (sound.once .root rfl) (sound.accepts .root)
  have includeDirs := pathOf?_reads.choosesAll_iff (sound.accepts .includeDir)
  have includeFiles := pathOf?_reads.choosesAll_iff (sound.accepts .includeFile)
  have exclude := textOf?_reads.choosesAll_iff (sound.accepts .exclude)
  have maxDepth :=
    depthIn?_reads.chooses_iff (sound.once .maxDepth rfl)
      (sound.accepts .maxDepth)
  have formats :=
    formatIn?_reads.chooses_iff (sound.once .format rfl)
      (sound.accepts .format)
  constructor
  · intro configures
    refine ⟨?_, (formats _ _).1 configures.format⟩
    have followLinks :
        given.contains .followLinks = settings.followLinks :=
      (Bool.or_false _).symm.trans configures.followLinks.symm
    cases settings
    exact
      (Settings.mk.injEq ..).mpr
        ⟨(root _ _).1 configures.root,
          (includeDirs _ _).1 configures.includeDirs,
          (includeFiles _ _).1 configures.includeFiles,
          (exclude _ _).1 configures.exclude, followLinks,
          (maxDepth _ _).1 configures.maxDepth⟩
  · rintro ⟨rfl, rfl⟩
    exact
      { root := (root _ _).2 rfl
        includeDirs := (includeDirs _ _).2 rfl
        includeFiles := (includeFiles _ _).2 rfl
        exclude := (exclude _ _).2 rfl
        followLinks := (Bool.or_false _).symm
        maxDepth := (maxDepth _ _).2 rfl
        format := (formats _ _).2 rfl }

end Options

theorem Request.parse_of_isSound
    {given : List GivenOption} (sound : IsSound given) :
    parse (given.flatMap GivenOption.arguments) =
      .ok (.run (Options.gathered given)) := by
  rw [parse, ofArguments_givenAll, (Options.foldlM_take given).1 sound]
  rfl

theorem Request.parse_of_not_isSound
    {given : List GivenOption} (unsound : ¬ IsSound given) :
    ∃ fault,
      parse (given.flatMap GivenOption.arguments) = .error fault := by
  obtain ⟨fault, failed⟩ := (Options.foldlM_take given).2 unsound
  rw [parse, ofArguments_givenAll, failed]
  exact ⟨fault, rfl⟩

namespace Program

/-- Sound options lead to a run with the settings and the log that they ask for,
which are the same in any order that keeps the values of each option in theirs.
Other options are refused, and whatever the tree holds makes no difference. -/
theorem invoke_given (given : List GivenOption) :
    let arguments := given.flatMap GivenOption.arguments
    (IsSound given →
        (∃ settings format, Configures given settings format) ∧
          ∀ settings format, Configures given settings format →
            ∀ tree sink,
              invoke tree arguments sink =
                .ok
                  (logAt (.ofVerbosity (verbosityOf given))
                    (runAs format tree settings sink))) ∧
      (¬ IsSound given →
        ∃ fault, ∀ tree sink,
          invoke tree arguments sink = .error fault ∧
            (answer tree arguments sink).code = 2 ∧
            (answer tree arguments sink).stdout = "") ∧
      ∀ other : List GivenOption,
        other.Perm given →
        (∀ option, option.isRepeatable = true →
          valuesOf option other = valuesOf option given) →
        ∀ tree sink,
          (invoke tree (other.flatMap GivenOption.arguments) sink).toOption =
            (invoke tree arguments sink).toOption := by
  intro arguments
  refine ⟨fun sound => ?_, fun unsound => ?_, ?_⟩
  · have parsed := Request.parse_of_isSound sound
    refine
      ⟨⟨_, _, (Options.configures_iff sound).2 ⟨rfl, rfl⟩⟩, ?_⟩
    intro settings format configures
    obtain ⟨rfl, rfl⟩ := (Options.configures_iff sound).1 configures
    intro tree sink
    rw [invoke, parsed, ← Options.verbosity_gathered]
    rfl
  · obtain ⟨fault, failed⟩ := Request.parse_of_not_isSound unsound
    refine ⟨fault, fun tree sink => ?_⟩
    have refused : invoke tree arguments sink = .error fault := by
      rw [invoke, failed]
      rfl
    rw [answer, refused]
    exact ⟨rfl, rfl, rfl⟩
  · intro other rearranged kept tree sink
    by_cases sound : IsSound given
    · have otherSound := sound.of_perm rearranged
      rw [invoke, invoke, Request.parse_of_isSound sound,
        Request.parse_of_isSound otherSound,
        Options.gathered_congr sound rearranged kept]
    · have otherUnsound : ¬ IsSound other := by
        rwa [isSound_congr rearranged]
      obtain ⟨fault, failed⟩ := Request.parse_of_not_isSound sound
      obtain ⟨otherFault, otherFailed⟩ :=
        Request.parse_of_not_isSound otherUnsound
      rw [invoke, invoke, failed, otherFailed]
      rfl

/-- Options in both syntaxes, with values that look like options. -/
def mixedOptions : List GivenOption :=
  [.separate .exclude (Utf8.encode "*.py".toList), .verboseLetters 1,
    .joined .root (Utf8.encode "--root".toList),
    .joined .exclude (Utf8.encode "-v".toList), .followLinks,
    .separate .maxDepth (Utf8.encode "+007".toList),
    .joined .format (Utf8.encode "json".toList)]

/-- The settings they ask for. -/
def mixedSettings : Settings :=
  { Settings.standard with
    root := Path.ofString "--root"
    exclude := ["*.py", "-v"]
    followLinks := true
    maxDepth := 7 }

theorem configures_mixedOptions :
    Configures mixedOptions mixedSettings .json := by
  have sound : IsSound mixedOptions := by
    decide +kernel
  apply (Options.configures_iff sound).2
  decide +kernel

/-- The format may be asked for first, and a second root is refused. -/
theorem mixedOptions_invoked :
    let rearranged : List GivenOption :=
      .joined .format (Utf8.encode "json".toList) :: mixedOptions.dropLast
    let repeated : List GivenOption :=
      mixedOptions ++ [.joined .root (Utf8.encode ".".toList)]
    ∀ tree sink,
      invoke tree (mixedOptions.flatMap GivenOption.arguments) sink =
          .ok (logAt .debug (runJson tree mixedSettings sink)) ∧
        (invoke tree (rearranged.flatMap GivenOption.arguments) sink).toOption =
          some (logAt .debug (runJson tree mixedSettings sink)) ∧
        (answer tree (repeated.flatMap GivenOption.arguments) sink).code =
          2 := by
  intro rearranged repeated tree sink
  obtain ⟨sound, _, same⟩ := invoke_given mixedOptions
  obtain ⟨_, runs⟩ := sound (by decide +kernel)
  have ran := runs _ _ configures_mixedOptions tree sink
  obtain ⟨_, refused, _⟩ := invoke_given repeated
  obtain ⟨_, refusal⟩ := refused (by decide +kernel)
  refine ⟨ran, ?_, (refusal tree sink).2.1⟩
  have moved : rearranged.Perm mixedOptions := by
    decide +kernel
  have kept (option : ValueOption) :
      valuesOf option rearranged = valuesOf option mixedOptions := by
    cases option <;> decide +kernel
  rw [same rearranged moved (fun option _ => kept option) tree sink, ran]
  rfl

end Program

end HeaderAudit

import Mathlib.Data.List.Induction
import HeaderAudit.Proofs.CommandLine.Given
import HeaderAudit.Proofs.CommandLine.Values

/-! A list of options is sound when each could be given alone and none that may
be given once is given twice. Taking the options one by one succeeds exactly
for a sound list. -/

namespace HeaderAudit

/-- Options that may be given more than once. -/
def ValueOption.isRepeatable : ValueOption → Bool
  | .includeDir | .includeFile | .exclude => true
  | .root | .maxDepth | .format => false

namespace GivenOption

/-- The values that are given for an option, in their order. -/
def valuesOf (option : ValueOption) (given : List GivenOption) :
    List (List UInt8) :=
  given.filterMap (valueFor? option)

/-- An option could be given alone. -/
def IsWellFormed : GivenOption → Prop
  | joined option value => option.Accepts value
  | separate option value => ¬ LooksLikeOption value ∧ option.Accepts value
  | _ => True

/-- Each option could be given alone, and only those that may be repeated
are. -/
structure IsSound (given : List GivenOption) : Prop where
  wellFormed : ∀ one ∈ given, one.IsWellFormed
  once :
    ∀ option, option.isRepeatable = false →
      (valuesOf option given).length ≤ 1
  followLinks : given.count .followLinks ≤ 1

instance : (one : GivenOption) → Decidable one.IsWellFormed
  | joined option value => inferInstanceAs (Decidable (option.Accepts value))
  | separate option value =>
      inferInstanceAs
        (Decidable (¬ LooksLikeOption value ∧ option.Accepts value))
  | followLinks => isTrue trivial
  | verbose => isTrue trivial
  | verboseLetters _ => isTrue trivial

/-- Only three options with a value may not be repeated. -/
theorem isSound_iff {given : List GivenOption} :
    IsSound given ↔
      (∀ one ∈ given, one.IsWellFormed) ∧
        (∀ option ∈ [ValueOption.root, .maxDepth, .format],
          (valuesOf option given).length ≤ 1) ∧
        given.count .followLinks ≤ 1 := by
  have single (option : ValueOption) :
      option ∈ [ValueOption.root, .maxDepth, .format] ↔
        option.isRepeatable = false := by
    cases option <;> decide
  constructor
  · intro sound
    exact
      ⟨sound.wellFormed,
        fun option member => sound.once option ((single option).1 member),
        sound.followLinks⟩
  · intro described
    obtain ⟨wellFormed, once, followLinks⟩ := described
    exact
      ⟨wellFormed,
        fun option repeatable => once option ((single option).2 repeatable),
        followLinks⟩

instance (given : List GivenOption) : Decidable (IsSound given) :=
  decidable_of_iff _ isSound_iff.symm

/-- An option may be given after the others. -/
structure HasRoom (before : List GivenOption) (one : GivenOption) : Prop where
  value :
    ∀ option, one.valueFor? option ≠ none →
      option.isRepeatable = true ∨ valuesOf option before = []
  followLinks : one = .followLinks → .followLinks ∉ before

variable {before : List GivenOption} {one : GivenOption}
  {option : ValueOption} {value : List UInt8}

theorem valuesOf_concat :
    valuesOf option (before ++ [one]) =
      valuesOf option before ++ (one.valueFor? option).toList := by
  rw [valuesOf, List.filterMap_append, valuesOf]
  cases found : one.valueFor? option <;> simp [found]

theorem length_valuesOf_concat_le_one_iff :
    (valuesOf option (before ++ [one])).length ≤ 1 ↔
      (valuesOf option before).length ≤ 1 ∧
        (one.valueFor? option ≠ none → valuesOf option before = []) := by
  rw [valuesOf_concat, List.length_append]
  cases one.valueFor? option with
  | none => simp
  | some value =>
      rw [Option.toList_some, List.length_singleton, ← List.length_eq_zero_iff]
      constructor
      · intro short
        exact ⟨by omega, fun _ => by omega⟩
      · intro described
        have none := described.2 nofun
        omega

theorem count_followLinks_concat_le_one_iff :
    (before ++ [one]).count .followLinks ≤ 1 ↔
      before.count .followLinks ≤ 1 ∧
        (one = .followLinks → .followLinks ∉ before) := by
  rw [List.count_append, List.count_singleton, ← List.count_eq_zero]
  by_cases same : one = .followLinks
  · simp only [same, beq_self_eq_true, if_true, true_implies]
    omega
  · simp [same]

/-- A list is sound with one more option when it was sound and has room for
it. -/
theorem isSound_concat_iff :
    IsSound (before ++ [one]) ↔
      IsSound before ∧ one.IsWellFormed ∧ one.HasRoom before := by
  constructor
  · intro sound
    obtain ⟨wellFormed, last⟩ := List.forall_mem_append.1 sound.wellFormed
    obtain ⟨count, noLinks⟩ :=
      count_followLinks_concat_le_one_iff.1 sound.followLinks
    refine ⟨⟨wellFormed, ?_, count⟩, last one List.mem_cons_self, ?_, noLinks⟩
    · intro option single
      exact (length_valuesOf_concat_le_one_iff.1 (sound.once option single)).1
    · intro option valued
      by_cases repeatable : option.isRepeatable = true
      · exact Or.inl repeatable
      · rw [Bool.not_eq_true] at repeatable
        have short := sound.once option repeatable
        exact Or.inr ((length_valuesOf_concat_le_one_iff.1 short).2 valued)
  · intro described
    obtain ⟨sound, wellFormed, room⟩ := described
    refine ⟨?_, ?_, ?_⟩
    · exact
        List.forall_mem_append.2
          ⟨sound.wellFormed, List.forall_mem_singleton.2 wellFormed⟩
    · intro option single
      refine
        length_valuesOf_concat_le_one_iff.2 ⟨sound.once option single, ?_⟩
      intro valued
      rcases room.value option valued with repeatable | none
      · rw [single] at repeatable
        cases repeatable
      · exact none
    · exact
        count_followLinks_concat_le_one_iff.2
          ⟨sound.followLinks, room.followLinks⟩

theorem hasRoom_joined_iff :
    HasRoom before (.joined option value) ↔
      option.isRepeatable = true ∨ valuesOf option before = [] := by
  constructor
  · intro room
    exact room.value option (by simp [valueFor?])
  · intro room
    refine ⟨fun other valued => ?_, nofun⟩
    obtain ⟨_, given⟩ := Option.ne_none_iff_exists'.1 valued
    obtain ⟨rfl, _⟩ := Option.ite_none_right_eq_some.1 given
    exact room

theorem hasRoom_separate_iff :
    HasRoom before (.separate option value) ↔
      option.isRepeatable = true ∨ valuesOf option before = [] := by
  rw [← @hasRoom_joined_iff before option value]
  exact
    ⟨fun room => ⟨room.value, nofun⟩, fun room => ⟨room.value, nofun⟩⟩

/-- What has no value may be given again unless it follows links. -/
theorem hasRoom_of_unvalued
    (unvalued : ∀ option, one.valueFor? option = none)
    (either : one ≠ .followLinks ∨ .followLinks ∉ before) :
    HasRoom before one :=
  ⟨fun option valued => absurd (unvalued option) valued,
    fun same => either.resolve_left (absurd same)⟩

theorem IsSound.accepts
    (sound : IsSound before) (option : ValueOption) :
    ∀ value ∈ valuesOf option before, option.Accepts value := by
  intro value member
  obtain ⟨one, given, valued⟩ := List.mem_filterMap.1 member
  have wellFormed := sound.wellFormed one given
  cases one with
  | joined other value =>
      obtain ⟨rfl, ⟨⟩⟩ := Option.ite_none_right_eq_some.1 valued
      exact wellFormed
  | separate other value =>
      obtain ⟨rfl, ⟨⟩⟩ := Option.ite_none_right_eq_some.1 valued
      exact wellFormed.2
  | _ => cases valued

end GivenOption

open GivenOption

namespace Options

/-- The options that hold all that is given. -/
def gathered (given : List GivenOption) : Options where
  root := (valuesOf .root given).head?.bind pathOf?
  includeDirs := (valuesOf .includeDir given).filterMap pathOf?
  includeFiles := (valuesOf .includeFile given).filterMap pathOf?
  exclude := (valuesOf .exclude given).filterMap textOf?
  followLinks := given.contains .followLinks
  maxDepth := (valuesOf .maxDepth given).head?.bind depthIn?
  format := (valuesOf .format given).head?.bind formatIn?
  verbosity := given.foldl (fun total one => total + one.verbosity) 0

variable {before : List GivenOption} {option : ValueOption}
  {value : List UInt8}

/-- A value that is accepted finds its place. -/
theorem set_gathered
    (accepts : option.Accepts value)
    (room : option.isRepeatable = true ∨ valuesOf option before = []) :
    (gathered before).set option value =
      .ok (gathered (before ++ [.joined option value])) := by
  have verbosity : (GivenOption.joined option value).verbosity = 0 := rfl
  cases option with
  | root =>
      obtain ⟨path, names⟩ := accepts
      have read := (pathOf?_reads value _).2 names
      have none : valuesOf .root before = [] := room.resolve_left (by decide)
      simp [set, gathered, valuesOf_concat, valueFor?, verbosity, once, none,
        read, Except.map]
  | includeDir =>
      obtain ⟨path, names⟩ := accepts
      have read := (pathOf?_reads value _).2 names
      simp [set, gathered, valuesOf_concat, valueFor?, verbosity, read]
  | includeFile =>
      obtain ⟨path, names⟩ := accepts
      have read := (pathOf?_reads value _).2 names
      simp [set, gathered, valuesOf_concat, valueFor?, verbosity, read]
  | exclude =>
      obtain ⟨text, spells⟩ := accepts
      have read := (textOf?_reads value _).2 spells
      rw [set_exclude]
      simp [gathered, valuesOf_concat, valueFor?, verbosity, read]
  | maxDepth =>
      obtain ⟨depth, writes⟩ := accepts
      have read := (depthIn?_reads value _).2 writes
      have none : valuesOf .maxDepth before = [] := room.resolve_left (by decide)
      rw [set_maxDepth]
      simp [gathered, valuesOf_concat, valueFor?, verbosity, once, none, read,
        Except.map]
  | format =>
      obtain ⟨format, names⟩ := accepts
      have read := (formatIn?_reads value _).2 names
      have none : valuesOf .format before = [] := room.resolve_left (by decide)
      rw [set_format]
      simp [gathered, valuesOf_concat, valueFor?, verbosity, once, none, read,
        Except.map]

/-- Any other value is refused. -/
theorem exists_error_of_set
    (sound : IsSound before)
    (unfit :
      ¬ (option.Accepts value ∧
          (option.isRepeatable = true ∨ valuesOf option before = []))) :
    ∃ fault, (gathered before).set option value = .error fault := by
  have accepted := sound.accepts option
  cases option with
  | root =>
      obtain ⟨fault, refused⟩ :=
        pathOf?_reads.exists_error_of_once accepted
          fun fit => unfit ⟨fit.1, Or.inr fit.2⟩
      exact ⟨fault, congrArg (Except.map _) refused⟩
  | includeDir =>
      have nothing :=
        pathOf?_reads.eq_none fun some => unfit ⟨some, Or.inl rfl⟩
      simp [set, nothing]
  | includeFile =>
      have nothing :=
        pathOf?_reads.eq_none fun some => unfit ⟨some, Or.inl rfl⟩
      simp [set, nothing]
  | exclude =>
      have nothing :=
        textOf?_reads.eq_none fun some => unfit ⟨some, Or.inl rfl⟩
      simp [set_exclude, nothing]
  | maxDepth =>
      obtain ⟨fault, refused⟩ :=
        depthIn?_reads.exists_error_of_once accepted
          fun fit => unfit ⟨fit.1, Or.inr fit.2⟩
      exact ⟨fault, congrArg (Except.map _) refused⟩
  | format =>
      obtain ⟨fault, refused⟩ :=
        formatIn?_reads.exists_error_of_once accepted
          fun fit => unfit ⟨fit.1, Or.inr fit.2⟩
      exact ⟨fault, congrArg (Except.map _) refused⟩

/-! ## Taking all options -/

theorem gathered_separate :
    gathered (before ++ [.separate option value]) =
      gathered (before ++ [.joined option value]) := by
  have verbosity :
      (GivenOption.separate option value).verbosity =
        (GivenOption.joined option value).verbosity :=
    rfl
  have valueFor (other : ValueOption) :
      (GivenOption.separate option value).valueFor? other =
        (GivenOption.joined option value).valueFor? other :=
    rfl
  simp [gathered, valuesOf_concat, verbosity, valueFor]

variable {one : GivenOption}

theorem take_gathered
    (wellFormed : one.IsWellFormed) (room : one.HasRoom before) :
    (gathered before).take one = .ok (gathered (before ++ [one])) := by
  cases one with
  | joined option value =>
      exact set_gathered wellFormed (hasRoom_joined_iff.1 room)
  | separate option value =>
      rw [take_separate_of_not_looksLikeOption wellFormed.1, gathered_separate]
      exact set_gathered wellFormed.2 (hasRoom_separate_iff.1 room)
  | followLinks =>
      have notYet := room.followLinks rfl
      simp [take, gathered, notYet, valuesOf_concat, valueFor?,
        GivenOption.verbosity]
  | verbose =>
      simp [take, gathered, valuesOf_concat, valueFor?, GivenOption.verbosity]
  | verboseLetters more =>
      simp [take, gathered, valuesOf_concat, valueFor?, GivenOption.verbosity]

theorem exists_error_of_take
    (sound : IsSound before)
    (unfit : ¬ (one.IsWellFormed ∧ one.HasRoom before)) :
    ∃ fault, (gathered before).take one = .error fault := by
  cases one with
  | joined option value =>
      rw [hasRoom_joined_iff] at unfit
      exact exists_error_of_set sound unfit
  | separate option value =>
      by_cases looksLikeOption : LooksLikeOption value
      · exact ⟨_, take_separate_of_looksLikeOption looksLikeOption⟩
      · rw [take_separate_of_not_looksLikeOption looksLikeOption]
        rw [hasRoom_separate_iff] at unfit
        apply exists_error_of_set sound
        intro fit
        exact unfit ⟨⟨looksLikeOption, fit.1⟩, fit.2⟩
  | followLinks =>
      have already : GivenOption.followLinks ∈ before := by
        by_contra notYet
        have room : HasRoom before .followLinks :=
          hasRoom_of_unvalued (fun _ => rfl) (Or.inr notYet)
        exact unfit ⟨trivial, room⟩
      simp [take, gathered, already]
  | verbose =>
      have room : HasRoom before .verbose :=
        hasRoom_of_unvalued (fun _ => rfl) (Or.inl (by simp))
      exact absurd ⟨trivial, room⟩ unfit
  | verboseLetters more =>
      have room : HasRoom before (.verboseLetters more) :=
        hasRoom_of_unvalued (fun _ => rfl) (Or.inl (by simp))
      exact absurd ⟨trivial, room⟩ unfit

/-- Taking the options one by one gathers what is given, or fails. -/
theorem foldlM_take (given : List GivenOption) :
    (IsSound given → given.foldlM take {} = .ok (gathered given)) ∧
      (¬ IsSound given →
        ∃ fault, given.foldlM take {} = .error fault) := by
  -- From the end: whether the last option fits depends on all before it.
  induction given using List.reverseRecOn with
  | nil =>
      refine ⟨fun _ => rfl, fun unsound => absurd ?_ unsound⟩
      exact ⟨nofun, fun _ _ => Nat.zero_le 1, Nat.zero_le 1⟩
  | append_singleton before one inductionHypothesis =>
      obtain ⟨gathers, fails⟩ := inductionHypothesis
      rw [isSound_concat_iff, List.foldlM_append]
      by_cases sound : IsSound before
      · have lastTaken :
            (Except.ok (gathered before) >>= [one].foldlM take) =
              (gathered before).take one :=
          bind_pure ((gathered before).take one)
        rw [gathers sound, lastTaken]
        refine ⟨fun fit => take_gathered fit.2.1 fit.2.2, fun unfit => ?_⟩
        exact exists_error_of_take sound fun fit => unfit ⟨sound, fit⟩
      · obtain ⟨fault, failed⟩ := fails sound
        rw [failed]
        exact ⟨fun fit => absurd fit.1 sound, fun _ => ⟨fault, rfl⟩⟩

end Options

/-! ## Rearranging options -/

namespace GivenOption

variable {given other : List GivenOption}

theorem valuesOf_perm (rearranged : other.Perm given) (option : ValueOption) :
    (valuesOf option other).Perm (valuesOf option given) :=
  rearranged.filterMap (valueFor? option)

theorem IsSound.of_perm
    (sound : IsSound given) (rearranged : other.Perm given) :
    IsSound other := by
  refine ⟨?_, ?_, ?_⟩
  · intro one member
    exact sound.wellFormed one (rearranged.subset member)
  · intro option single
    rw [(valuesOf_perm rearranged option).length_eq]
    exact sound.once option single
  · rw [rearranged.count_eq]
    exact sound.followLinks

theorem isSound_congr (rearranged : other.Perm given) :
    IsSound other ↔ IsSound given :=
  ⟨fun sound => sound.of_perm rearranged.symm,
    fun sound => sound.of_perm rearranged⟩

/-- The values of an option that is given once have only one order. -/
theorem IsSound.valuesOf_eq
    (sound : IsSound given) (rearranged : other.Perm given)
    {option : ValueOption}
    (kept :
      option.isRepeatable = true →
        valuesOf option other = valuesOf option given) :
    valuesOf option other = valuesOf option given := by
  by_cases repeatable : option.isRepeatable = true
  · exact kept repeatable
  · rw [Bool.not_eq_true] at repeatable
    have short := sound.once option repeatable
    have perm := valuesOf_perm rearranged option
    match values : valuesOf option given, short with
    | [], _ =>
        rw [values] at perm
        exact perm.eq_nil
    | [value], _ =>
        rw [values] at perm
        exact List.perm_singleton.1 perm

end GivenOption

/-- What is gathered depends on the order of the values of each option and on
nothing else of the order. -/
theorem Options.gathered_congr
    {given other : List GivenOption}
    (sound : IsSound given) (rearranged : other.Perm given)
    (kept :
      ∀ option, option.isRepeatable = true →
        valuesOf option other = valuesOf option given) :
    gathered other = gathered given := by
  have valuesEq (option : ValueOption) :=
    sound.valuesOf_eq rearranged (kept option)
  have followLinksEq :
      other.contains .followLinks = given.contains .followLinks :=
    rearranged.contains_eq
  have verbosityEq :
      other.foldl (fun total one => total + one.verbosity) 0 =
        given.foldl (fun total one => total + one.verbosity) 0 :=
    rearranged.foldl_eq' (fun _ _ _ _ _ => Nat.add_right_comm ..) 0
  simp only [gathered, valuesEq, followLinksEq, verbosityEq]

end HeaderAudit

import HeaderAudit.CommandLine.Options

/-! Asking for another format at the same place changes nothing but the format,
also when the arguments are at fault. -/

namespace HeaderAudit

namespace Format

/-- The word for a format. -/
def word : Format → String
  | .human => "human"
  | .json => "json"

/-- The arguments that ask for a format. -/
def arguments (format : Format) (joined : Bool) : List (List UInt8) :=
  if joined then
    [Utf8.encode ("--format=" ++ format.word).toList]
  else
    [Utf8.encode "--format".toList, Utf8.encode format.word.toList]

end Format

/-- The options with another format. -/
def Options.withFormat (format : Format) (options : Options) : Options :=
  { options with format := some format }

/-- The request with another format, when it is one for a run. -/
def Request.withFormat (format : Format) : Request → Request
  | .run options => .run (options.withFormat format)
  | .version => .version
  | .help => .help

namespace Options

variable {options : Options} {format : Format}

/-- Once a format was given, values are set the same whatever it is. -/
theorem set_withFormat
    (given : options.format ≠ none) (option : ValueOption)
    (value : List UInt8) :
    (options.withFormat format).set option value =
      (options.set option value).map (withFormat format) := by
  obtain ⟨other, formatEq⟩ := Option.ne_none_iff_exists'.1 given
  cases option with
  | root =>
      simp only [set, withFormat]
      cases once options.root (pathOf? value) <;> rfl
  | includeDir =>
      simp only [set, withFormat]
      cases pathOf? value <;> rfl
  | includeFile =>
      simp only [set, withFormat]
      cases pathOf? value <;> rfl
  | exclude =>
      simp only [set, withFormat]
      cases Utf8.decode value <;> rfl
  | maxDepth =>
      simp only [set, withFormat]
      cases once options.maxDepth ((Utf8.decode value).bind depthOf?) <;> rfl
  | format => simp [set, withFormat, once, formatEq, Except.map]

theorem switch_withFormat (options : Options) (turned : Switch) :
    (options.withFormat format).switch turned =
      (options.switch turned).map
        (Sum.map (withFormat format) (Request.withFormat format)) := by
  cases turned with
  | followLinks =>
      by_cases followed : options.followLinks = true <;>
        simp [switch, withFormat, followed, Except.map]
  | verbose => rfl
  | help => rfl
  | version => rfl

theorem switchAll_withFormat (letters : List UInt8) :
    ∀ options : Options,
      (options.withFormat format).switchAll letters =
        (options.switchAll letters).map
          (Sum.map (withFormat format) (Request.withFormat format)) := by
  induction letters with
  | nil =>
      intro options
      rfl
  | cons letter rest inductionHypothesis =>
      intro options
      rw [switchAll, switchAll]
      cases Switch.letters.find? fun entry =>
          Utf8.encode [entry.1] = [letter] with
      | none => rfl
      | some entry =>
          simp only [switch_withFormat]
          cases options.switch entry.2 with
          | error fault => rfl
          | ok effect =>
              cases effect with
              | inl later => exact inductionHypothesis later
              | inr request => rfl

/-- A switch that ends the reading does not ask for a run. -/
theorem withFormat_of_switch
    {turned : Switch} {request : Request}
    (ran : options.switch turned = .ok (.inr request)) :
    request.withFormat format = request := by
  cases turned with
  | followLinks =>
      rw [switch] at ran
      split at ran <;> cases ran
  | verbose => cases ran
  | help =>
      cases ran
      rfl
  | version =>
      cases ran
      rfl

theorem withFormat_of_switchAll
    {letters : List UInt8} {request : Request} :
    ∀ {options : Options},
      options.switchAll letters = .ok (.inr request) →
        request.withFormat format = request := by
  induction letters with
  | nil => nofun
  | cons letter rest inductionHypothesis =>
      intro options ran
      rw [switchAll] at ran
      split at ran
      · cases ran
      next turned _ =>
        cases switched : options.switch turned with
        | error fault =>
            rw [switched] at ran
            cases ran
        | ok effect =>
            rw [switched] at ran
            cases effect with
            | inl later => exact inductionHypothesis ran
            | inr asked =>
                cases ran
                exact withFormat_of_switch switched

theorem withFormat_of_format
    (formatEq : options.format = some format) :
    options.withFormat format = options := by
  rw [withFormat, ← formatEq]

theorem format_ne_none_of_set
    {option : ValueOption} {value : List UInt8} {later : Options}
    (given : options.format ≠ none)
    (ran : options.set option value = .ok later) :
    later.format ≠ none := by
  obtain ⟨other, formatEq⟩ := Option.ne_none_iff_exists'.1 given
  have same :
      (options.withFormat other).set option value =
        (options.set option value).map (withFormat other) :=
    set_withFormat given option value
  rw [withFormat_of_format formatEq, ran] at same
  rw [Except.ok.inj same]
  nofun

theorem format_ne_none_of_switch
    {turned : Switch} {later : Options}
    (given : options.format ≠ none)
    (ran : options.switch turned = .ok (.inl later)) :
    later.format ≠ none := by
  obtain ⟨other, formatEq⟩ := Option.ne_none_iff_exists'.1 given
  have same :
      (options.withFormat other).switch turned =
        (options.switch turned).map
          (Sum.map (withFormat other) (Request.withFormat other)) :=
    switch_withFormat options turned
  rw [withFormat_of_format formatEq, ran] at same
  rw [Sum.inl.inj (Except.ok.inj same)]
  nofun

theorem format_ne_none_of_switchAll
    {letters : List UInt8} {later : Options}
    (given : options.format ≠ none)
    (ran : options.switchAll letters = .ok (.inl later)) :
    later.format ≠ none := by
  obtain ⟨other, formatEq⟩ := Option.ne_none_iff_exists'.1 given
  have same :
      (options.withFormat other).switchAll letters =
        (options.switchAll letters).map
          (Sum.map (withFormat other) (Request.withFormat other)) :=
    switchAll_withFormat letters options
  rw [withFormat_of_format formatEq, ran] at same
  rw [Sum.inl.inj (Except.ok.inj same)]
  nofun

end Options

namespace Request

theorem ofArguments_withFormat
    {format : Format} (options : Options) (arguments : List (List UInt8))
    (given : options.format ≠ none) :
    ofArguments (options.withFormat format) arguments =
      (ofArguments options arguments).map (withFormat format) := by
  fun_induction ofArguments options arguments with
  | case1 => rfl
  | case6 _ _ _ letters _ later switched inductionHypothesis =>
      have stays := Options.format_ne_none_of_switchAll given switched
      simp_all [ofArguments, Options.switchAll_withFormat, Except.map]
  | case9 =>
      have stays := Options.format_ne_none_of_set given ‹_›
      simp_all [ofArguments, Options.set_withFormat given, Except.map]
  | case12 =>
      have stays := Options.format_ne_none_of_set given ‹_›
      simp_all [ofArguments, Options.set_withFormat given, Except.map]
  | case16 =>
      have stays := Options.format_ne_none_of_switch given ‹_›
      simp_all [ofArguments, Options.switch_withFormat, Except.map]
  | _ =>
      simp_all [ofArguments, Options.switchAll_withFormat,
        Options.set_withFormat given, Options.switch_withFormat,
        withFormat, Except.map]

end Request

theorem optionNamed?_format :
    optionNamed? ValueOption.names (Utf8.encode "format".toList) =
      some .format := by
  decide +kernel

namespace Format

variable (format : Format)

theorem ofBytes_separate :
    Argument.ofBytes (Utf8.encode "--format".toList) =
      .long (Utf8.encode "format".toList) none := by
  decide +kernel

theorem ofBytes_joined :
    Argument.ofBytes (Utf8.encode ("--format=" ++ format.word).toList) =
      .long (Utf8.encode "format".toList)
        (some (Utf8.encode format.word.toList)) := by
  cases format <;> decide +kernel

theorem ofBytes_word :
    Argument.ofBytes (Utf8.encode format.word.toList) =
      .operand (Utf8.encode format.word.toList) := by
  cases format <;> decide +kernel

theorem ofText?_word :
    (Utf8.decode (Utf8.encode format.word.toList)).bind ofText? =
      some format := by
  cases format <;> decide +kernel

/-- A format can be set unless one was given before. -/
theorem set_word (options : Options) :
    options.set .format (Utf8.encode format.word.toList) =
      if options.format = none then
        .ok (options.withFormat format)
      else
        .error .repeated := by
  rw [Options.set, ofText?_word]
  cases given : options.format with
  | none => rfl
  | some other => rfl

/-- The first of the arguments cannot be taken for a value. -/
theorem exists_arguments_eq (joined : Bool) :
    ∃ first others name value,
      format.arguments joined = first :: others ∧
        Argument.ofBytes first = .long name value := by
  cases joined with
  | false => exact ⟨_, _, _, _, rfl, ofBytes_separate⟩
  | true => exact ⟨_, _, _, _, rfl, format.ofBytes_joined⟩

end Format

namespace Request

/-- Asking for a format leaves the reading to the other arguments, unless a
format was given before. -/
theorem ofArguments_format
    (options : Options) (format : Format) (joined : Bool)
    (rest : List (List UInt8)) :
    ofArguments options (format.arguments joined ++ rest) =
      if options.format = none then
        ofArguments (options.withFormat format) rest
      else
        .error .repeated := by
  cases joined with
  | false =>
      simp only [Format.arguments, Bool.false_eq_true, if_false,
        List.cons_append, List.nil_append, ofArguments,
        Format.ofBytes_separate, optionNamed?_format, Format.ofBytes_word,
        Format.set_word]
      by_cases given : options.format = none
      · simp only [if_pos given]
      · simp only [if_neg given]
  | true =>
      simp only [Format.arguments, if_true,
        List.cons_append, List.nil_append, ofArguments,
        Format.ofBytes_joined, optionNamed?_format,
        Format.set_word]
      by_cases given : options.format = none
      · simp only [if_pos given]
      · simp only [if_neg given]

/-- An option cannot take the word that asks for a format as its value. -/
theorem ofArguments_before_format
    {argument name : List UInt8} {option : ValueOption} (options : Options)
    (format : Format) (joined : Bool) (rest : List (List UInt8))
    (read : Argument.ofBytes argument = .long name none)
    (named : optionNamed? ValueOption.names name = some option) :
    ofArguments options (argument :: (format.arguments joined ++ rest)) =
      .error .missingValue := by
  obtain ⟨_, _, _, _, argumentsEq, ofBytesEq⟩ :=
    format.exists_arguments_eq joined
  simp only [argumentsEq, List.cons_append, ofArguments, read, named,
    ofBytesEq]

variable (format other : Format) (joined : Bool)

/-- The format that is asked for matters to nothing else. -/
theorem ofArguments_change_format (after : List (List UInt8)) :
    ∀ (before : List (List UInt8)) (options : Options),
      ofArguments options (before ++ format.arguments joined ++ after) =
        (ofArguments options (before ++ other.arguments joined ++ after)).map
          (withFormat format)
  | [], options => by
      rw [List.nil_append, List.nil_append, ofArguments_format,
        ofArguments_format]
      by_cases given : options.format = none
      · rw [if_pos given, if_pos given]
        exact
          ofArguments_withFormat (options.withFormat other) after nofun
      · rw [if_neg given, if_neg given]
        rfl
  | argument :: rest, options => by
      have later := ofArguments_change_format after rest
      have filled (format : Format) :
          rest ++ format.arguments joined ++ after ≠ [] := by
        obtain ⟨_, _, _, _, argumentsEq, _⟩ := format.exists_arguments_eq joined
        simp [argumentsEq]
      cases read : Argument.ofBytes argument with
      | separator =>
          simp only [List.cons_append, ofArguments, read]
          rw [if_neg (filled format), if_neg (filled other)]
          rfl
      | operand bytes =>
          simp only [List.cons_append, ofArguments, read]
          rfl
      | short letters =>
          simp only [List.cons_append, ofArguments, read]
          cases switched : options.switchAll letters with
          | error fault => rfl
          | ok effect =>
              cases effect with
              | inl more => exact later more
              | inr request =>
                  exact
                    congrArg Except.ok
                      (Options.withFormat_of_switchAll switched).symm
      | long name value =>
          cases named : optionNamed? ValueOption.names name with
          | none =>
              simp only [List.cons_append, ofArguments, read, named]
              cases optionNamed? Switch.names name with
              | none => rfl
              | some turned =>
                  dsimp only
                  by_cases unneeded : value.isSome = true
                  · rw [if_pos unneeded, if_pos unneeded]
                    rfl
                  rw [if_neg unneeded, if_neg unneeded]
                  cases switched : options.switch turned with
                  | error fault => rfl
                  | ok effect =>
                      cases effect with
                      | inl more => exact later more
                      | inr request =>
                          exact
                            congrArg Except.ok
                              (Options.withFormat_of_switch switched).symm
          | some option =>
              cases value with
              | some given =>
                  simp only [List.cons_append, ofArguments, read, named]
                  cases options.set option given with
                  | error fault => rfl
                  | ok more => exact later more
              | none =>
                  cases rest with
                  | nil =>
                      simp only [List.cons_append, List.nil_append,
                        ofArguments_before_format options _ joined after
                          read named]
                      rfl
                  | cons next others =>
                      simp only [List.cons_append, ofArguments, read, named]
                      cases Argument.ofBytes next with
                      | operand given =>
                          dsimp only
                          cases options.set option given with
                          | error fault => rfl
                          | ok more =>
                              exact
                                ofArguments_change_format after others more
                      | separator => rfl
                      | long _ _ => rfl
                      | short _ => rfl

end Request

end HeaderAudit

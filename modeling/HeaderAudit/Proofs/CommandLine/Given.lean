import HeaderAudit.CommandLine.Options
import HeaderAudit.Proofs.Text.Utf8

/-! Reading the arguments of one option after another is taking the options one
by one: what stands before and behind an option has no part in how it is taken.
-/

namespace HeaderAudit

/-- The name of an option with a value. -/
def ValueOption.name : ValueOption → String
  | .root => "root"
  | .includeDir => "include-dir"
  | .includeFile => "include-file"
  | .exclude => "exclude"
  | .maxDepth => "max-depth"
  | .format => "format"

/-- The long name of a switch. -/
def Switch.name : Switch → String
  | .followLinks => "follow-links"
  | .verbose => "verbose"
  | .help => "help"
  | .version => "version"

/-- One option as it is given to a run. -/
inductive GivenOption where
  /-- A value behind an equals sign. -/
  | joined (option : ValueOption) (value : List UInt8)
  /-- A value that is an argument of its own. -/
  | separate (option : ValueOption) (value : List UInt8)
  | followLinks
  | verbose
  /-- A dash and one letter or more. -/
  | verboseLetters (more : Nat)
  deriving DecidableEq, Repr

namespace GivenOption

/-- The arguments that give the option. -/
def arguments : GivenOption → List (List UInt8)
  | joined option value =>
      [dash :: dash ::
        (Utf8.encode option.name.toList ++ equalsSign :: value)]
  | separate option value =>
      [dash :: dash :: Utf8.encode option.name.toList, value]
  | followLinks => [dash :: dash :: Utf8.encode Switch.followLinks.name.toList]
  | verbose => [dash :: dash :: Utf8.encode Switch.verbose.name.toList]
  | verboseLetters more =>
      [dash :: Utf8.encode (List.replicate (more + 1) 'v')]

/-- The value that is given for an option. -/
def valueFor? (option : ValueOption) : GivenOption → Option (List UInt8)
  | joined given value => if given = option then some value else none
  | separate given value => if given = option then some value else none
  | _ => none

/-- By how much the output becomes more verbose. -/
def verbosity : GivenOption → Nat
  | verbose => 1
  | verboseLetters more => more + 1
  | _ => 0

end GivenOption

/-- An argument that begins like an option cannot be a value of its own. -/
def LooksLikeOption (value : List UInt8) : Prop :=
  ∃ second rest, value = dash :: second :: rest

instance : (value : List UInt8) → Decidable (LooksLikeOption value)
  | [] => isFalse nofun
  | [_] => isFalse nofun
  | first :: second :: rest =>
      decidable_of_iff (first = dash)
        ⟨fun isDash => ⟨second, rest, by rw [isDash]⟩,
          fun ⟨_, _, same⟩ => (List.cons.inj same).1⟩

/-- The options with one more that is given. -/
def Options.take (options : Options) :
    GivenOption → Except UsageError Options
  | .joined option value => options.set option value
  | .separate option value =>
      match Argument.ofBytes value with
      | .operand value => options.set option value
      | _ => .error .missingValue
  | .followLinks =>
      if options.followLinks then
        .error .repeated
      else
        .ok { options with followLinks := true }
  | .verbose => .ok { options with verbosity := options.verbosity + 1 }
  | .verboseLetters more =>
      .ok { options with verbosity := options.verbosity + (more + 1) }

namespace Argument

variable {name value : List UInt8}

theorem bne_equalsSign_of_mem (noSign : equalsSign ∉ name) :
    ∀ byte ∈ name, (byte != equalsSign) = true :=
  fun _ member => bne_iff_ne.2 fun same => noSign (same ▸ member)

theorem splitValue_of_notMem (noSign : equalsSign ∉ name) :
    splitValue name = .long name none := by
  have nothing :
      (name ++ []).dropWhile (· != equalsSign) =
        [].dropWhile (· != equalsSign) :=
    List.dropWhile_append_of_pos (bne_equalsSign_of_mem noSign)
  rw [List.append_nil, List.dropWhile_nil] at nothing
  rw [splitValue, nothing]

theorem splitValue_append
    (noSign : equalsSign ∉ name) (value : List UInt8) :
    splitValue (name ++ equalsSign :: value) = .long name (some value) := by
  have notSign := bne_equalsSign_of_mem noSign
  rw [splitValue, List.dropWhile_append_of_pos notSign,
    List.takeWhile_append_of_pos notSign]
  simp

theorem ofBytes_dashes (some : value ≠ []) :
    ofBytes (dash :: dash :: value) = splitValue value := by
  simp [ofBytes, some]

theorem ofBytes_of_not_looksLikeOption (plain : ¬ LooksLikeOption value) :
    ofBytes value = .operand value := by
  match value with
  | [] => rfl
  | [first] => rfl
  | first :: second :: rest =>
      have notDash : first ≠ dash := by
        rintro rfl
        exact plain ⟨second, rest, rfl⟩
      simp [ofBytes, notDash]

theorem ofBytes_ne_operand
    (looksLikeOption : LooksLikeOption value) (operand : List UInt8) :
    ofBytes value ≠ .operand operand := by
  obtain ⟨second, rest, rfl⟩ := looksLikeOption
  unfold ofBytes
  dsimp only
  split
  · contradiction
  split
  · nofun
  split
  · nofun
  · unfold splitValue
    split <;> nofun

end Argument

namespace Options

variable {options : Options} {option : ValueOption} {value : List UInt8}

theorem take_separate_of_not_looksLikeOption
    (plain : ¬ LooksLikeOption value) :
    options.take (.separate option value) = options.set option value := by
  simp only [take, Argument.ofBytes_of_not_looksLikeOption plain]

theorem take_separate_of_looksLikeOption
    (looksLikeOption : LooksLikeOption value) :
    options.take (.separate option value) = .error .missingValue := by
  have notOperand := Argument.ofBytes_ne_operand looksLikeOption
  cases read : Argument.ofBytes value with
  | operand operand => exact absurd read (notOperand operand)
  | _ => simp only [take, read]

theorem switchAll_replicate_verbose (count : Nat) :
    ∀ options : Options,
      options.switchAll (List.replicate count 0x76) =
        .ok (.inl { options with verbosity := options.verbosity + count }) := by
  induction count with
  | zero =>
      intro options
      rfl
  | succ count inductionHypothesis =>
      intro options
      have isVerbose :
          (Switch.letters.find? fun entry =>
            Utf8.encode [entry.1] = [0x76]) = some ('v', .verbose) := by
        decide +kernel
      rw [List.replicate_succ, switchAll, isVerbose]
      simp only [switch, inductionHypothesis]
      rw [Nat.add_assoc, Nat.add_comm 1 count]

end Options

theorem ValueOption.optionNamed?_name (option : ValueOption) :
    optionNamed? names (Utf8.encode option.name.toList) = some option := by
  cases option <;> decide +kernel

theorem ValueOption.encode_name (option : ValueOption) :
    Utf8.encode option.name.toList ≠ [] ∧
      equalsSign ∉ Utf8.encode option.name.toList := by
  cases option <;> decide +kernel

theorem Switch.ofBytes_name (turned : Switch) :
    let name := Utf8.encode turned.name.toList
    Argument.ofBytes (dash :: dash :: name) = .long name none ∧
      optionNamed? ValueOption.names name = none ∧
      optionNamed? names name = some turned := by
  cases turned <;> decide +kernel

theorem encode_replicate_verbose (count : Nat) :
    Utf8.encode (List.replicate count 'v') = List.replicate count 0x76 := by
  have letter : String.utf8EncodeChar 'v' = [0x76] := by decide +kernel
  induction count with
  | zero => rfl
  | succ count inductionHypothesis =>
      rw [List.replicate_succ, Utf8.encode_cons, letter, inductionHypothesis]
      rfl

namespace Request

theorem ofArguments_switch
    (options : Options) (turned : Switch) (rest : List (List UInt8)) :
    ofArguments options
        ((dash :: dash :: Utf8.encode turned.name.toList) :: rest) =
      options.switch turned >>= fun
        | .inl later => ofArguments later rest
        | .inr request => .ok request := by
  obtain ⟨read, notValued, named⟩ := turned.ofBytes_name
  simp only [ofArguments, read, notValued, named, Option.isSome_none,
    Bool.false_eq_true, if_false]
  cases options.switch turned with
  | error fault => rfl
  | ok effect => cases effect <;> rfl

theorem ofArguments_verboseLetters
    (options : Options) (more : Nat) (rest : List (List UInt8)) :
    ofArguments options
        ((GivenOption.verboseLetters more).arguments ++ rest) =
      options.take (.verboseLetters more) >>= (ofArguments · rest) := by
  have read :
      Argument.ofBytes (dash :: List.replicate (more + 1) 0x76) =
        .short (List.replicate (more + 1) 0x76) := by
    have notDash : (0x76 : UInt8) ≠ dash := by decide
    simp [List.replicate_succ, Argument.ofBytes, notDash]
  simp only [GivenOption.arguments, encode_replicate_verbose,
    List.cons_append, List.nil_append, ofArguments, read,
    Options.switchAll_replicate_verbose, Options.take]
  rfl

/-- Reading the arguments of an option is taking it. -/
theorem ofArguments_given
    (options : Options) (given : GivenOption) (rest : List (List UInt8)) :
    ofArguments options (given.arguments ++ rest) =
      options.take given >>= (ofArguments · rest) := by
  cases given with
  | joined option value =>
      obtain ⟨_, noSign⟩ := option.encode_name
      have read := Argument.splitValue_append noSign value
      rw [← Argument.ofBytes_dashes (by simp)] at read
      simp only [GivenOption.arguments, List.cons_append, List.nil_append,
        ofArguments, read, option.optionNamed?_name, Options.take]
      cases options.set option value <;> rfl
  | separate option value =>
      obtain ⟨named, noSign⟩ := option.encode_name
      have read := Argument.splitValue_of_notMem noSign
      rw [← Argument.ofBytes_dashes named] at read
      simp only [GivenOption.arguments, List.cons_append, List.nil_append,
        ofArguments, read, option.optionNamed?_name, Options.take]
      cases Argument.ofBytes value with
      | operand operand =>
          dsimp only
          cases options.set option operand <;> rfl
      | _ => rfl
  | followLinks =>
      rw [GivenOption.arguments, List.singleton_append, ofArguments_switch,
        Options.switch, Options.take]
      by_cases followed : options.followLinks = true
      · rw [if_pos followed, if_pos followed]
        rfl
      · rw [if_neg followed, if_neg followed]
        rfl
  | verbose =>
      rw [GivenOption.arguments, List.singleton_append, ofArguments_switch,
        Options.switch, Options.take]
      rfl
  | verboseLetters more => exact ofArguments_verboseLetters options more rest

/-- Reading all arguments is taking the options in their order. -/
theorem ofArguments_givenAll (given : List GivenOption) :
    ∀ options : Options,
      ofArguments options (given.flatMap GivenOption.arguments) =
        given.foldlM Options.take options >>= fun later =>
          .ok (.run later) := by
  induction given with
  | nil =>
      intro options
      rfl
  | cons first rest inductionHypothesis =>
      intro options
      rw [List.flatMap_cons, ofArguments_given, List.foldlM_cons]
      cases options.take first with
      | error fault => rfl
      | ok later => exact inductionHypothesis later

end Request

end HeaderAudit

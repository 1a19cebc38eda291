import HeaderAudit.Settings

/-! Each option is completed, with its value checked, before the next argument
is looked at; so an earlier fault comes first, and a request for the version
answers at once when nothing before it is at fault. -/

namespace HeaderAudit

/-- The form of the report. -/
inductive Format where
  | human
  | json
  deriving DecidableEq, Repr

/-- The options of a run, as far as they were given. -/
structure Options where
  root : Option Path := none
  includeDirs : List Path := []
  includeFiles : List Path := []
  exclude : List String := []
  followLinks : Bool := false
  maxDepth : Option Nat := none
  format : Option Format := none
  verbosity : Nat := 0
  deriving DecidableEq, Repr

/-- What the arguments ask for. -/
inductive Request where
  | run (options : Options)
  | version
  | help
  deriving DecidableEq, Repr

/-- Why arguments ask for nothing. -/
inductive UsageError where
  | unknownOption
  | operand
  | missingValue
  | unneededValue
  | repeated
  | invalidValue
  deriving DecidableEq, Repr

/-- The wording of a fault in the arguments. -/
def UsageError.message : UsageError → String
  | .unknownOption => "unexpected option"
  | .operand => "unexpected operand"
  | .missingValue => "an option needs a value"
  | .unneededValue => "an option takes no value"
  | .repeated => "an option is given more than once"
  | .invalidValue => "a value is not valid"

/-- The byte that options begin with. -/
def dash : UInt8 := 0x2D

/-- The byte between an option and its value. -/
def equalsSign : UInt8 := 0x3D

/-- Options that take a value. -/
inductive ValueOption where
  | root
  | includeDir
  | includeFile
  | exclude
  | maxDepth
  | format
  deriving DecidableEq, Repr

/-- Options that take none. -/
inductive Switch where
  | followLinks
  | verbose
  | help
  | version
  deriving DecidableEq, Repr

namespace ValueOption

/-- The options with a value and their names. -/
def names : List (String × ValueOption) :=
  [("root", .root), ("include-dir", .includeDir),
    ("include-file", .includeFile), ("exclude", .exclude),
    ("max-depth", .maxDepth), ("format", .format)]

end ValueOption

namespace Switch

/-- The switches and their names. -/
def names : List (String × Switch) :=
  [("follow-links", .followLinks), ("verbose", .verbose), ("help", .help),
    ("version", .version)]

/-- The switches with a name of one letter. -/
def letters : List (Char × Switch) :=
  [('v', .verbose), ('h', .help), ('V', .version)]

end Switch

/-- The option with this name. -/
def optionNamed? {option : Type} (names : List (String × option))
    (name : List UInt8) : Option option :=
  (names.find? fun entry => Utf8.encode entry.1.toList = name).map Prod.snd

/-- The first number that is too great for a depth. -/
def depthBound : Nat := 18446744073709551616

/-- The number that decimal digits write. -/
def digitsValue (digits : List Char) : Nat :=
  digits.foldl (fun value digit => 10 * value + (digit.toNat - 48)) 0

/-- The depth that a text writes: decimal digits after at most one plus. -/
def depthOf? (text : List Char) : Option Nat :=
  let digits :=
    match text with
    | '+' :: rest => rest
    | _ => text
  if digits ≠ [] ∧ digits.all Char.isDigit ∧
      digitsValue digits < depthBound then
    some (digitsValue digits)
  else
    none

namespace Format

/-- The format with this name. -/
def ofText? (text : List Char) : Option Format :=
  if text = "human".toList then
    some .human
  else if text = "json".toList then
    some .json
  else
    none

end Format

namespace Options

/-- A value that may be given once. -/
def once {value : Type} (given : Option value) (new : Option value) :
    Except UsageError (Option value) :=
  match given, new with
  | some _, _ => .error .repeated
  | none, some value => .ok (some value)
  | none, none => .error .invalidValue

/-- The path that a value names.  It must not be empty. -/
def pathOf? (value : List UInt8) : Option Path :=
  if value = [] then none else some ⟨value⟩

/-- The options with one more value. -/
def set (options : Options) (option : ValueOption) (value : List UInt8) :
    Except UsageError Options :=
  match option with
  | .root =>
      (once options.root (pathOf? value)).map fun root =>
        { options with root := root }
  | .includeDir =>
      match pathOf? value with
      | some path =>
          .ok { options with includeDirs := options.includeDirs ++ [path] }
      | none => .error .invalidValue
  | .includeFile =>
      match pathOf? value with
      | some path =>
          .ok { options with includeFiles := options.includeFiles ++ [path] }
      | none => .error .invalidValue
  | .exclude =>
      match Utf8.decode value with
      | some text =>
          .ok { options with exclude := options.exclude ++ [String.ofList text] }
      | none => .error .invalidValue
  | .maxDepth =>
      (once options.maxDepth ((Utf8.decode value).bind depthOf?)).map
        fun depth => { options with maxDepth := depth }
  | .format =>
      (once options.format ((Utf8.decode value).bind Format.ofText?)).map
        fun format => { options with format := format }

/-- The effect of a switch: more options, or a request that ends the
reading. -/
def switch (options : Options) (turned : Switch) :
    Except UsageError (Options ⊕ Request) :=
  match turned with
  | .followLinks =>
      if options.followLinks then
        .error .repeated
      else
        .ok (.inl { options with followLinks := true })
  | .verbose =>
      .ok (.inl { options with verbosity := options.verbosity + 1 })
  | .help => .ok (.inr .help)
  | .version => .ok (.inr .version)

/-- The effect of switches that are given by their letters. -/
def switchAll (options : Options) :
    List UInt8 → Except UsageError (Options ⊕ Request)
  | [] => .ok (.inl options)
  | letter :: rest =>
      match Switch.letters.find? fun entry =>
          Utf8.encode [entry.1] = [letter] with
      | none => .error .unknownOption
      | some (_, turned) =>
          match options.switch turned with
          | .ok (.inl options) => options.switchAll rest
          | other => other

end Options

/-- An argument by the way it begins. -/
inductive Argument where
  /-- Two dashes: only operands follow. -/
  | separator
  /-- Two dashes, a name, and perhaps a value after an equals sign. -/
  | long (name : List UInt8) (value : Option (List UInt8))
  /-- One dash and letters. -/
  | short (letters : List UInt8)
  /-- Anything else, a single dash included. -/
  | operand (bytes : List UInt8)
  deriving DecidableEq, Repr

namespace Argument

/-- The name and the value of an argument after its two dashes. -/
def splitValue (text : List UInt8) : Argument :=
  match text.dropWhile (· != equalsSign) with
  | [] => .long text none
  | _ :: value => .long (text.takeWhile (· != equalsSign)) (some value)

/-- The kind of an argument. -/
def ofBytes (bytes : List UInt8) : Argument :=
  match bytes with
  | first :: second :: rest =>
      if first ≠ dash then
        .operand bytes
      else if second ≠ dash then
        .short (second :: rest)
      else if rest = [] then
        .separator
      else
        splitValue rest
  | _ => .operand bytes

end Argument

namespace Request

/-- Read arguments after the given options. -/
def ofArguments (options : Options) :
    List (List UInt8) → Except UsageError Request
  | [] => .ok (.run options)
  | argument :: rest =>
      match Argument.ofBytes argument with
      | .separator =>
          if rest = [] then .ok (.run options) else .error .operand
      | .operand _ => .error .operand
      | .short letters =>
          match options.switchAll letters with
          | .error fault => .error fault
          | .ok (.inl options) => ofArguments options rest
          | .ok (.inr request) => .ok request
      | .long name value =>
          match optionNamed? ValueOption.names name with
          | some option =>
              match value, rest with
              | some value, rest =>
                  match options.set option value with
                  | .error fault => .error fault
                  | .ok options => ofArguments options rest
              | none, [] => .error .missingValue
              | none, next :: rest =>
                  match Argument.ofBytes next with
                  | .operand value =>
                      match options.set option value with
                      | .error fault => .error fault
                      | .ok options => ofArguments options rest
                  | _ => .error .missingValue
          | none =>
              match optionNamed? Switch.names name with
              | some turned =>
                  if value.isSome then
                    .error .unneededValue
                  else
                    match options.switch turned with
                    | .error fault => .error fault
                    | .ok (.inl options) => ofArguments options rest
                    | .ok (.inr request) => .ok request
              | none => .error .unknownOption

/-- What a list of arguments asks for. -/
def parse (arguments : List (List UInt8)) : Except UsageError Request :=
  ofArguments {} arguments

end Request

namespace Options

/-- The settings of a run with these options.  Each of the three lists stands
in place of the standard one when it was given. -/
def settings (options : Options) : Settings :=
  let standard :=
    Settings.withRoot (options.root.getD Settings.standard.root)
  { standard with
    includeDirs :=
      if options.includeDirs.isEmpty then
        standard.includeDirs
      else
        options.includeDirs
    includeFiles :=
      if options.includeFiles.isEmpty then
        standard.includeFiles
      else
        options.includeFiles
    exclude :=
      if options.exclude.isEmpty then standard.exclude else options.exclude
    followLinks := options.followLinks
    maxDepth := options.maxDepth.getD standard.maxDepth }

end Options

end HeaderAudit

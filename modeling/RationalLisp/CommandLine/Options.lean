import RationalLisp.Text.Digit

/-! # Command line options

Options begin with a hyphen. Long ones may be cut short as long as one option remains, and take a
value after an equals sign; short ones take it right after the letter too. A word that begins with
a hyphen is still a value if it looks like a negative number or holds a blank. Two hyphens alone
separate options from other words, also where they stand for a value: they are dropped, and the
option has none. -/

namespace RationalLisp

namespace CommandLine

/-- The options by what they ask for. -/
inductive Flag where
  | help
  | repl
  | code
  | codePrint
  | file
  | filePrint
  | prelude
  | logLevel
  deriving DecidableEq

/-- How options are written. -/
def flags : List (Text × Flag) :=
  [("-h", .help), ("--help", .help), ("-r", .repl), ("-e", .code), ("-ep", .codePrint),
    ("-f", .file), ("-fp", .filePrint), ("--prelude", .prelude), ("--log-level", .logLevel)]

/-- Whether an option takes a value. -/
def Flag.takesValue : Flag → Bool
  | help | repl | prelude => false
  | code | codePrint | file | filePrint | logLevel => true

/-- What the command is to do. -/
inductive Mode where
  | repl
  | code (source : Text) (print : Bool)
  | file (path : Option Text) (print : Bool)
  deriving DecidableEq

/-- The option that asks for a mode. -/
def Mode.flag : Mode → Flag
  | repl => .repl
  | code _ print => if print then .codePrint else .code
  | file _ print => if print then .filePrint else .file

/-- What a command line asks for. -/
structure Options where
  mode : Option Mode
  prelude : Bool
  logLevel : Option Text
  deriving DecidableEq

/-- A command line that runs nothing: it asks for help, or it is wrong. -/
inductive Usage where
  | help
  | invalid
  deriving DecidableEq

/-- What a word of the command line is. -/
inductive Word where
  /-- A value, or a word in the way. -/
  | plain
  /-- The word after which there are no options. -/
  | separator
  /-- An option, written with two hyphens or one, and the value that is part of the word. -/
  | option (flag : Flag) (long : Bool) (attached : Option Text)
  /-- An option that there is not. -/
  | unknown
  deriving DecidableEq

/-- The part of a word before its first equals sign and the part after it. -/
def splitEquals (word : Text) : Text × Option Text :=
  let name := word.takeWhile (· ≠ ('=' : CodePoint))
  match word.dropWhile (· ≠ ('=' : CodePoint)) with
  | [] => (name, none)
  | _ :: value => (name, some value)

/-- Whether a name has two hyphens. -/
def isLong (name : Text) : Bool := Text.ofString "--" |>.isPrefixOf name

/-- Whether a text is a run of digits. -/
def allDigits (t : Text) : Bool := t.all fun c => c.digit?.isSome

/-- Whether a word looks like a negative number. A line feed at its end does not count. -/
def looksNegative (word : Text) : Bool :=
  let body := if word.getLast? = some ('\n' : CodePoint) then word.dropLast else word
  match body with
  | [] => false
  | hyphen :: number =>
    let whole := number.takeWhile fun c => c.digit?.isSome
    match number.dropWhile fun c => c.digit?.isSome with
    | [] => hyphen = '-' && !whole.isEmpty
    | point :: fraction => hyphen = '-' && point = '.' && !fraction.isEmpty && allDigits fraction

/-- The options that an incomplete word may stand for. -/
def candidates (word : Text) : List Word :=
  if isLong word then
    let (name, value) := splitEquals word
    flags.filterMap fun (written, flag) =>
      if name.isPrefixOf written then some (.option flag true value) else none
  else
    flags.filterMap fun (written, flag) =>
      if written = word.take 2 then some (.option flag false (some (word.drop 2)))
      else if word.isPrefixOf written then some (.option flag false none)
      else none

/-- What a word with a hyphen is that is no option as it stands. -/
def classifyOther (word : Text) : Except Usage Word :=
  match candidates word with
  | [option] => .ok option
  | _ :: _ :: _ => .error .invalid
  | [] =>
    if looksNegative word || word.contains (' ' : CodePoint) then .ok .plain else .ok .unknown

/-- What a word of the command line is. -/
def classify (word : Text) : Except Usage Word :=
  if word = Text.ofString "--" then .ok .separator
  else if word.head? ≠ some ('-' : CodePoint) ∨ word.length = 1 then .ok .plain
  else match flags.lookup word with
    | some flag => .ok (.option flag (isLong word) none)
    | none =>
      match splitEquals word with
      | (name, some value) =>
        match flags.lookup name with
        | some flag => .ok (.option flag (isLong name) (some value))
        | none => classifyOther word
      | _ => classifyOther word

/-- What the words of the command line are. After the separator all are plain. -/
def classifyAll : List Text → Except Usage (List (Text × Word))
  | [] => .ok []
  | word :: rest =>
    match classify word with
    | .error usage => .error usage
    | .ok .separator => .ok ((word, .separator) :: rest.map (·, .plain))
    | .ok kind => (classifyAll rest).map ((word, kind) :: ·)

/-- The value that an option's own word gives it. The separator is dropped and leaves none. -/
def valueOf (attached : Text) : Option Text :=
  if attached = Text.ofString "--" then none else some attached

/-- The options in one word: each with its value, and the last one perhaps still waiting for one. -/
structure Bundle where
  complete : List (Flag × Option Text)
  open? : Option Flag

/-- Take apart the letters that follow an option without a value. Each has to be an option. -/
def unbundle (seen : List (Flag × Option Text)) : (letters : Text) → Except Usage Bundle
  | [] => .ok ⟨seen.reverse, none⟩
  | letter :: rest =>
    match flags.lookup [('-' : CodePoint), letter] with
    | none => .error .invalid
    | some flag =>
      if flag.takesValue then
        match rest with
        | [] => .ok ⟨seen.reverse, some flag⟩
        | attached => .ok ⟨((flag, valueOf attached) :: seen).reverse, none⟩
      else unbundle ((flag, none) :: seen) rest

/-- The options that an option word stands for. -/
def bundle (flag : Flag) (long : Bool) : Option Text → Except Usage Bundle
  | none => if flag.takesValue then .ok ⟨[], some flag⟩ else .ok ⟨[(flag, none)], none⟩
  | some attached =>
    if flag.takesValue then .ok ⟨[(flag, valueOf attached)], none⟩
    else if long || attached = [] then .error .invalid
    else unbundle [(flag, none)] attached

/-- Ask for a mode. Different modes exclude each other; of equal ones the last counts. -/
def Options.withMode (o : Options) (mode : Mode) : Except Usage Options :=
  match o.mode with
  | none => .ok { o with mode := some mode }
  | some old => if old.flag = mode.flag then .ok { o with mode := some mode } else .error .invalid

/-- Take an option into account. Code without a value is an empty program. -/
def Options.take (o : Options) (flag : Flag) (value : Option Text) : Except Usage Options :=
  match flag with
  | .help => .error .help
  | .repl => o.withMode .repl
  | .code => o.withMode (.code (value.getD []) false)
  | .codePrint => o.withMode (.code (value.getD []) true)
  | .file => o.withMode (.file value false)
  | .filePrint => o.withMode (.file value true)
  | .prelude => .ok { o with prelude := true }
  | .logLevel => .ok { o with logLevel := value }

/-- Take several options into account. -/
def Options.takeAll (o : Options) : List (Flag × Option Text) → Except Usage Options
  | [] => .ok o
  | (flag, value) :: rest =>
    match o.take flag value with
    | .ok o => o.takeAll rest
    | .error usage => .error usage

/-- Go through the words of the command line. Words in the way make it wrong, but not before all
others have been looked at. -/
def collect (o : Options) (clean : Bool) : List (Text × Word) → Except Usage Options
  | [] => if clean then .ok o else .error .invalid
  | (_, .option flag long attached) :: rest =>
    match bundle flag long attached with
    | .error usage => .error usage
    | .ok b =>
      match b.open? with
      | none =>
        match o.takeAll b.complete with
        | .error usage => .error usage
        | .ok o => collect o clean rest
      | some last =>
        match rest with
        | (value, .plain) :: rest =>
          match o.takeAll (b.complete ++ [(last, some value)]) with
          | .error usage => .error usage
          | .ok o => collect o clean rest
        | _ => .error .invalid
  | (_, .plain) :: rest => collect o false rest
  | (_, .separator) :: rest => collect o false rest
  | (_, .unknown) :: rest => collect o false rest

/-- What a command line asks for. -/
def Options.ofWords (words : List Text) : Except Usage Options :=
  match classifyAll words with
  | .error usage => .error usage
  | .ok words => collect ⟨none, false, none⟩ true words

end CommandLine

end RationalLisp

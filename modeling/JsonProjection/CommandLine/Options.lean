/-!
Reading the arguments of a program.

Arguments are options or operands. An option is written `--name`, or `-c` if it has a letter;
letters without a value may be written together, and a value stands behind an equals sign, behind
the letter, or in the next argument, where it must not look like an option. `--` ends the options.
An option may be given once. Operands that follow each other without an option between them are
one group.

What is wrong first decides; a request for the version or for help is answered when it is reached.
-/

namespace JsonProjection.CommandLine

/-- What an option is for. A value has to be accepted by a test. -/
inductive OptionKind where
  | switch
  | value (accepts : String → Bool)
  | version
  | help

structure OptionRule where
  name : String
  letter : Option Char
  kind : OptionKind

structure Grammar where
  rules : List OptionRule
  groupSize : Nat

inductive Halt where
  | usage
  | version
  | help
  deriving DecidableEq, Repr

/-- What arguments say: the options given, each with its value if it takes one, and the groups of
operands. -/
structure Arguments where
  given : List (String × String)
  groups : List (List String)
  deriving DecidableEq, Repr

def Arguments.has (arguments : Arguments) (name : String) : Bool :=
  (arguments.given.lookup name).isSome

def Arguments.value? (arguments : Arguments) (name : String) : Option String :=
  arguments.given.lookup name

/-- What is under way between two arguments: an option that waits for its value, an option with its
value, or a group of operands, latest first. -/
inductive Pending where
  | nothing
  | waiting (rule : OptionRule)
  | filled (rule : OptionRule) (value : String)
  | operands (latest : List String)

/-- Arguments read so far. Behind `--` all further ones are operands. -/
structure Reader where
  arguments : Arguments
  pending : Pending
  ended : Bool

namespace Reader

def new : Reader :=
  ⟨⟨[], []⟩, .nothing, false⟩

def give (reader : Reader) (rule : OptionRule) (value : String) : Except Halt Reader :=
  let taken : Except Halt Reader :=
    if reader.arguments.has rule.name then .error .usage
    else
      .ok
        { reader with
          arguments :=
            { reader.arguments with given := reader.arguments.given ++ [(rule.name, value)] } }
  match rule.kind with
  | .version => .error .version
  | .help => .error .help
  | .switch => taken
  | .value accepts => if accepts value then taken else .error .usage

def settle (grammar : Grammar) (reader : Reader) : Except Halt Reader :=
  let rested := { reader with pending := .nothing }
  match reader.pending with
  | .nothing => .ok rested
  | .waiting _ => .error .usage
  | .filled rule value => rested.give rule value
  | .operands latest =>
    if latest.length ≤ grammar.groupSize then
      .ok
        { rested with
          arguments :=
            { reader.arguments with groups := reader.arguments.groups ++ [latest.reverse] } }
    else .error .usage

def option (grammar : Grammar) (reader : Reader) (rule : OptionRule) (value? : Option String) :
    Except Halt Reader :=
  match reader.settle grammar with
  | .error halt => .error halt
  | .ok reader =>
    match rule.kind, value? with
    | .value _, some value => reader.give rule value
    | .value _, none => .ok { reader with pending := .waiting rule }
    | _, some _ => .error .usage
    | _, none => reader.give rule ""

def long (grammar : Grammar) (reader : Reader) (text : List Char) : Except Halt Reader :=
  let name := String.ofList (text.takeWhile (· != '='))
  let value? :=
    match text.dropWhile (· != '=') with
    | [] => none
    | _ :: value => some (String.ofList value)
  match grammar.rules.find? (·.name == name) with
  | none => .error .usage
  | some rule => reader.option grammar rule value?

def short (grammar : Grammar) (reader : Reader) : List Char → Except Halt Reader
  | [] => .ok reader
  | letter :: rest =>
    match grammar.rules.find? (·.letter == some letter) with
    | none => .error .usage
    | some rule =>
      match rule.kind with
      | .value _ =>
        let value? :=
          match rest with
          | [] => none
          | '=' :: value => some (String.ofList value)
          | value => some (String.ofList value)
        reader.option grammar rule value?
      | _ =>
        match reader.option grammar rule none with
        | .error halt => .error halt
        | .ok reader => short grammar reader rest

/-- An argument that is no option: the value that an option waits for, or an operand. -/
def operand (grammar : Grammar) (reader : Reader) (text : String) : Except Halt Reader :=
  if grammar.groupSize = 0 then .error .usage
  else
    match reader.pending with
    | .operands latest => .ok { reader with pending := .operands (text :: latest) }
    | _ => (reader.settle grammar).map fun reader => { reader with pending := .operands [text] }

def push (grammar : Grammar) (reader : Reader) (text : String) : Except Halt Reader :=
  if reader.ended then reader.operand grammar text
  else
    match text.toList with
    | ['-', '-'] => .ok { reader with ended := true }
    | '-' :: '-' :: rest => reader.long grammar rest
    | '-' :: letter :: rest => reader.short grammar (letter :: rest)
    | _ =>
      match reader.pending with
      | .waiting rule => .ok { reader with pending := .filled rule text }
      | _ => reader.operand grammar text

def pushAll (grammar : Grammar) : Reader → List String → Except Halt Reader
  | reader, [] => .ok reader
  | reader, text :: rest =>
    match reader.push grammar text with
    | .error halt => .error halt
    | .ok reader => pushAll grammar reader rest

end Reader

def Grammar.read (grammar : Grammar) (arguments : List String) : Except Halt Arguments :=
  match Reader.new.pushAll grammar arguments with
  | .error halt => .error halt
  | .ok reader => (reader.settle grammar).map Reader.arguments

def acceptsAny (_ : String) : Bool :=
  true

def verboseRule : OptionRule :=
  ⟨"verbose", some 'v', .switch⟩

def versionRule : OptionRule :=
  ⟨"version", some 'V', .version⟩

def helpRule : OptionRule :=
  ⟨"help", some 'h', .help⟩

def versionLine : String :=
  "jql 0.2.0"

def Halt.code : Halt → Nat
  | .usage => 2
  | .version => 0
  | .help => 0

/-- What a program that stops at its arguments prints, given its usage line. A wrong argument list
prints nothing. -/
def Halt.output (usage : String) : Halt → Option String
  | .usage => none
  | .version => some versionLine
  | .help => some usage

end JsonProjection.CommandLine

import JsonProjection.Text.Alphanumeric
import JsonProjection.Text.Blank
import JsonProjection.Text.Utf8

/-!
Files of variable assignments.

A line assigns a value to a name, possibly behind the word `export`. Values may be quoted, and a
quotation may go on over several lines of the file; a `#` behind white space begins a comment;
`$name` and `${name}` stand for the value of a variable. A variable that has a value keeps it, so
that of two assignments the first one counts, and reading stops at the first line that is none.
-/

namespace JsonProjection.EnvFile

/-- Variables with their values. A later variable of the same name is never looked at. -/
abbrev Variables := List (String × String)

def Variables.assign (known : Variables) (name value : String) : Variables :=
  match known.lookup name with
  | some _ => known
  | none => known ++ [(name, value)]

/-! ### Values -/

inductive Naming where
  | none
  | plain
  | braced
  deriving DecidableEq, Repr

/-- How far a value is read: its text and the name under way, latest character first, the quotation
that is open, whether a backslash came before, and whether the value is over. -/
structure Reading where
  latest : List Char
  name : List Char
  naming : Naming
  strong : Bool
  weak : Bool
  escaped : Bool
  ended : Bool

def Reading.new : Reading :=
  ⟨[], [], .none, false, false, false, false⟩

/-- Puts the value of the variable named so far behind the text; one that is not set is empty. -/
def Reading.substitute (known : Variables) (reading : Reading) : Reading :=
  let value := (known.lookup (String.ofList reading.name.reverse)).getD ""
  { reading with latest := value.toList.reverse ++ reading.latest, name := [], naming := .none }

def Reading.append (reading : Reading) (c : Char) : Reading :=
  { reading with latest := c :: reading.latest }

def Reading.pushName (known : Variables) (reading : Reading) (c : Char) : Reading :=
  if Text.isAlphanumeric c then { reading with name := c :: reading.name }
  else if reading.naming = .plain then
    if c = '{' && reading.name.isEmpty then { reading with naming := .braced }
    else
      let reading := reading.substitute known
      if c = '$' then { reading with naming := .plain } else reading.append c
  else if c = '}' then reading.substitute known
  else { reading with name := c :: reading.name }

/-- One character more of a value; `none` where it cannot stand. -/
def Reading.push (known : Variables) (reading : Reading) (c : Char) : Option Reading :=
  if reading.escaped then
    let reading := { reading with escaped := false }
    if c = '\\' || c = '\'' || c = '"' || c = '$' || c = ' ' then some (reading.append c)
    else if c = 'n' then some (reading.append '\n')
    else none
  else if reading.strong then
    some (if c = '\'' then { reading with strong := false } else reading.append c)
  else if reading.naming != .none then some (reading.pushName known c)
  else if c = '$' then some { reading with naming := .plain }
  else if c = '\\' then some { reading with escaped := true }
  else if reading.weak then
    some (if c = '"' then { reading with weak := false } else reading.append c)
  else if c = '\'' then some { reading with strong := true }
  else if c = '"' then some { reading with weak := true }
  else if c = ' ' || c = '\t' then some { reading with ended := true }
  else some (reading.append c)

def Reading.close (known : Variables) (reading : Reading) : Option String :=
  if reading.naming = .braced || reading.strong || reading.weak then none
  else some (String.ofList (reading.substitute known).latest.reverse)

/-- Reads the rest of a value. Behind its end there may be spaces, tabs and a comment. -/
def readValue (known : Variables) : Reading → List Char → Option String
  | reading, [] => reading.close known
  | reading, c :: rest =>
    if reading.ended then
      if c = ' ' || c = '\t' then readValue known reading rest
      else if c = '#' then reading.close known
      else none
    else
      match reading.push known c with
      | none => none
      | some reading => readValue known reading rest

/-! ### Lines -/

def isNameStart (c : Char) : Bool :=
  c.isAlpha || c = '_'

def isNameRest (c : Char) : Bool :=
  c.isAlphanum || c = '_' || c = '.'

def readName? (line : List Char) : Option (String × List Char) :=
  match line with
  | [] => none
  | c :: _ =>
    if isNameStart c then
      some (String.ofList (line.takeWhile isNameRest),
        (line.dropWhile isNameRest).dropWhile Text.isBlank)
    else none

/-- The name that a line assigns to, and what follows the equals sign. A name behind the word
`export` counts, unless the word itself is assigned to. -/
def readTarget? (line : List Char) : Option (String × List Char) :=
  match readName? line with
  | none => none
  | some (name, '=' :: rest) => some (name, rest)
  | some (name, rest) =>
    if name = "export" then
      match readName? rest with
      | some (name, '=' :: rest) => some (name, rest)
      | _ => none
    else none

inductive Statement where
  | nothing
  | assignment (name value : String)
  | malformed
  deriving DecidableEq, Repr

def isComment (line : List Char) : Bool :=
  line.isEmpty || line.head? == some '#'

def Statement.ofLine (known : Variables) (line : List Char) : Statement :=
  let line := Text.trim line
  if isComment line then .nothing
  else
    match readTarget? line with
    | none => .malformed
    | some (name, rest) =>
      let rest := rest.dropWhile Text.isBlank
      if isComment rest then .assignment name ""
      else
        match readValue known Reading.new rest with
        | some value => .assignment name value
        | none => .malformed

/-! ### Quotations over several lines -/

inductive Open where
  | nothing
  | blank
  | escape
  | strong
  | strongEscape
  | weak
  | weakEscape
  deriving DecidableEq, Repr

def Open.outside (c : Char) : Open :=
  if c = '\\' then .escape else if c = '"' then .weak else if c = '\'' then .strong else .nothing

def Open.next : Open → Char → Open
  | .nothing, c => if Text.isBlank c && c != '\n' && c != '\r' then .blank else Open.outside c
  | .blank, c => Open.outside c
  | .escape, _ => .nothing
  | .weak, c => if c = '\\' then .weakEscape else if c = '"' then .nothing else .weak
  | .weakEscape, _ => .weak
  | .strong, c => if c = '\\' then .strongEscape else if c = '\'' then .nothing else .strong
  | .strongEscape, _ => .strong

/-- Reads a line up to its comment: what is open there, whether a comment ended it, and the text so
far, latest character first. `latest` is the text in front of the line. -/
def scanLine : Open → List Char → List Char → Open × Bool × List Char
  | state, latest, [] => (state, false, latest)
  | state, latest, c :: rest =>
    if state = .blank && c = '#' then (state, true, latest)
    else scanLine (state.next c) (c :: latest) rest

/-- A text, latest character first, without the newline at its end, and without a carriage return in
front of that. -/
def dropNewline : List Char → List Char
  | '\n' :: '\r' :: latest => latest
  | '\n' :: latest => latest
  | latest => latest

/-! ### Files -/

def splitLines : Bytes → Bytes → List Bytes
  | latest, [] => if latest.isEmpty then [] else [latest.reverse]
  | latest, byte :: rest =>
    if byte == 0x0A then (byte :: latest).reverse :: splitLines [] rest
    else splitLines (byte :: latest) rest

/-- Takes the assignments of a file, line by line. `latest`, latest character first, and `state` are
the front of a quotation that earlier lines left open. Where none is open, a line that starts with
`#` is a comment. -/
def loadLines (known : Variables) (latest : List Char) (state : Open) :
    List Bytes → Variables
  | [] => known
  | bytes :: rest =>
    match Text.Utf8.decode? bytes with
    | none => known
    | some text =>
      if latest.isEmpty && (text.toList.dropWhile Text.isBlank).head? == some '#' then
        loadLines known [] .nothing rest
      else
        let (state, comment, latest) := scanLine state latest text.toList
        if comment || state = .nothing then
          let whole := if comment then latest else dropNewline latest
          match Statement.ofLine known whole.reverse with
          | .malformed => known
          | .nothing => loadLines known [] .nothing rest
          | .assignment name value =>
            loadLines (Variables.assign known name value) [] .nothing rest
        else loadLines known latest state rest

def dropMark : Bytes → Bytes
  | 0xEF :: 0xBB :: 0xBF :: rest => rest
  | bytes => bytes

def load (known : Variables) (file : Bytes) : Variables :=
  loadLines known [] .nothing (splitLines [] (dropMark file))

/-- The names that stand behind a dollar sign: those of variables whose values a file may ask for.
-/
def mentioned : List Char → List String
  | [] => []
  | '$' :: '{' :: rest => String.ofList (rest.takeWhile (· != '}')) :: mentioned rest
  | '$' :: rest => String.ofList (rest.takeWhile Text.isAlphanumeric) :: mentioned rest
  | _ :: rest => mentioned rest

end JsonProjection.EnvFile

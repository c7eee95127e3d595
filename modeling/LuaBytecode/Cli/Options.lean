namespace LuaBytecode.Cli

inductive View where
  | tokens
  | tree
  | listing
  deriving DecidableEq, Repr

def View.ofArgument? : String → Option View
  | "tokens" => some tokens
  | "ast" => some tree
  | "bytecode" => some listing
  | _ => none

structure Options where
  file : String
  name : Option String
  view : View
  verbosity : Nat
  deriving DecidableEq, Repr

inductive UsageError where
  | unexpected (argument : String)
  | repeated (option : String)
  | missingValue (option : String)
  | invalidValue (option value : String)
  | missingFile
  deriving DecidableEq, Repr

def UsageError.message : UsageError → String
  | unexpected argument => s!"unexpected argument '{argument}'"
  | repeated option => s!"the argument '{option}' cannot be used multiple times"
  | missingValue option => s!"a value is required for '{option}'"
  | invalidValue option value => s!"invalid value '{value}' for '{option}'"
  | missingFile => "the following required arguments were not provided: <FILE>"

inductive Request where
  | compile (options : Options)
  | version
  | help
  deriving DecidableEq, Repr

structure Draft where
  file : Option String := none
  name : Option String := none
  view : Option View := none
  verbosity : Nat := 0

namespace Draft

def setFile (d : Draft) (file : String) : Except UsageError Draft :=
  if d.file.isSome then .error (.unexpected file)
  else if file.isEmpty then .error (.invalidValue "<FILE>" file)
  else .ok { d with file := some file }

def setName (d : Draft) (name : String) : Except UsageError Draft :=
  if d.name.isSome then .error (.repeated "--name") else .ok { d with name := some name }

def setView (d : Draft) (value : String) : Except UsageError Draft :=
  match View.ofArgument? value with
  | none => .error (.invalidValue "--emit" value)
  | some view => if d.view.isSome then .error (.repeated "--emit") else .ok { d with view := some view }

def finish (d : Draft) : Except UsageError Request :=
  match d.file with
  | none => .error .missingFile
  | some file => .ok (.compile ⟨file, d.name, d.view.getD .listing, d.verbosity⟩)

def files (d : Draft) : List String → Except UsageError Request
  | [] => d.finish
  | file :: rest => do files (← d.setFile file) rest

def letters (d : Draft) (argument : String) : List Char → Except UsageError (Draft × Option Request)
  | [] => .ok (d, none)
  | 'v' :: rest => letters { d with verbosity := d.verbosity + 1 } argument rest
  | 'V' :: _ => .ok (d, some .version)
  | 'h' :: _ => .ok (d, some .help)
  | _ => .error (.unexpected argument)

end Draft

def isValue (argument : String) : Bool :=
  match argument.toList with
  | '-' :: _ :: _ => false
  | _ => true

def splitLong (body : List Char) : String × Option String :=
  let name := String.ofList (body.takeWhile (· != '='))
  match body.dropWhile (· != '=') with
  | [] => (name, none)
  | _ :: value => (name, some (String.ofList value))

/-- Arguments are read left to right, and the first that is wrong or that ends the reading decides. -/
def readArguments (d : Draft) : List String → Except UsageError Request
  | [] => d.finish
  | "--" :: rest => d.files rest
  | argument :: rest =>
    match argument.toList with
    | '-' :: '-' :: body =>
      let set (apply : Draft → String → Except UsageError Draft) (value? : Option String) :
          Except UsageError Request :=
        match value?, rest with
        | some value, rest => do readArguments (← apply d value) rest
        | none, value :: rest =>
          if isValue value then do readArguments (← apply d value) rest
          else .error (.missingValue argument)
        | none, [] => .error (.missingValue argument)
      match splitLong body with
      | ("name", value?) => set Draft.setName value?
      | ("emit", value?) => set Draft.setView value?
      | ("version", none) => .ok .version
      | ("help", none) => .ok .help
      | _ => .error (.unexpected argument)
    | '-' :: c :: cs => do
      match ← d.letters argument (c :: cs) with
      | (_, some request) => return request
      | (d, none) => readArguments d rest
    | _ => do readArguments (← d.setFile argument) rest

def readRequest (arguments : List String) : Except UsageError Request := readArguments { } arguments

end LuaBytecode.Cli

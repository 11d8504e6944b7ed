import FormulaQuery.Command
import FormulaQuery.Plan.Compile

/-!
# The command line

Arguments are read from left to right. An option is written long (`--schema file`, `--schema=file`) or short
(`-s file`, `-sfile`, `-s=file`), short ones may be run together, and after a lone `--` nothing is an option any
more. No option may be given twice. The first argument that is no option is the name of a command, and the others
are its operands.
-/

namespace FormulaQuery

/-- What arguments ask for. -/
inductive Request where
  | run (command : Command)
  | version
  | help
  /-- Nothing, since they are not well-formed. -/
  | misuse
deriving DecidableEq, Repr

namespace Arguments

/-- The name of a command. -/
inductive Verb where
  | compile | check | functions | function
deriving DecidableEq, Repr

/-- What can be set for a command. -/
inductive Setting where
  | verbose | json | schema | maxDepth | help
deriving DecidableEq, Repr

namespace Setting

/-- Whether a setting is followed by a value. -/
def takesValue : Setting → Bool
  | schema | maxDepth => true
  | verbose | json | help => false

def ofLong? : String → Option Setting
  | "verbose" => some verbose
  | "json" => some json
  | "schema" => some schema
  | "max-depth" => some maxDepth
  | "help" => some help
  | _ => none

def ofShort? : Char → Option Setting
  | 'v' => some verbose
  | 's' => some schema
  | 'h' => some help
  | _ => none

end Setting

namespace Verb

def ofName? : String → Option Verb
  | "compile" => some compile
  | "check" => some check
  | "functions" => some functions
  | "function" => some function
  | _ => none

def accepts : Verb → Setting → Bool
  | _, .verbose | _, .help | compile, _ | check, .schema | check, .maxDepth => true
  | _, _ => false

/-- The most operands, if there is a limit. -/
def maxOperands? : Verb → Option Nat
  | compile => none
  | check | function => some 1
  | functions => some 0

end Verb

/-- A number that fits into 64 bits; a plus sign may stand before it. -/
def number? (s : String) : Option Nat :=
  let digits := match s.toList with
    | '+' :: cs => cs
    | cs => cs
  if digits.isEmpty || !digits.all Ascii.isDigit then none
  else if Ascii.digitsValue digits < 2 ^ 64 then some (Ascii.digitsValue digits)
  else none

/-- What has been read after the name of a command. -/
structure State where
  operands : List String
  verbose : Bool
  json : Bool
  schema : Option String
  maxDepth : Option Nat
deriving DecidableEq, Repr

/-- Why reading stops before the end. -/
inductive Stop where
  | help | misuse
deriving DecidableEq, Repr

def Stop.request : Stop → Request
  | help => .help
  | misuse => .misuse

namespace State

def initial : State := ⟨[], false, false, none, none⟩

/-- Sets what takes no value. -/
def setFlag (st : State) : Setting → Except Stop State
  | .verbose => if st.verbose then .error .misuse else .ok { st with verbose := true }
  | .json => if st.json then .error .misuse else .ok { st with json := true }
  | .help => .error .help
  | .schema | .maxDepth => .error .misuse

/-- Sets what takes a value. -/
def setValue (st : State) (s : Setting) (value : String) : Except Stop State :=
  match s with
  | .schema => if st.schema.isSome || value.isEmpty then .error .misuse else .ok { st with schema := some value }
  | .maxDepth =>
    match st.maxDepth, number? value with
    | none, some n => .ok { st with maxDepth := some n }
    | _, _ => .error .misuse
  | .verbose | .json | .help => .error .misuse

def addOperand (verb : Verb) (st : State) (arg : String) : Except Stop State :=
  if verb.maxOperands?.all (st.operands.length < ·) then .ok { st with operands := st.operands ++ [arg] }
  else .error .misuse

/-- Reads short options that are run together. The result tells which one still waits for its value. -/
def readShort (verb : Verb) (st : State) : List Char → Except Stop (State × Option Setting)
  | [] => .ok (st, none)
  | c :: cs =>
    match (Setting.ofShort? c).filter verb.accepts with
    | none => .error .misuse
    | some s =>
      if s.takesValue then
        match cs with
        | [] => .ok (st, some s)
        | '=' :: value | value => do return (← st.setValue s (String.ofList value), none)
      else do
        let st ← st.setFlag s
        readShort verb st cs

/-- Reads a long option without its dashes. The result tells whether it still waits for its value. -/
def readLong (verb : Verb) (st : State) (cs : List Char) : Except Stop (State × Option Setting) :=
  match (Setting.ofLong? (String.ofList (cs.takeWhile (· != '=')))).filter verb.accepts with
  | none => .error .misuse
  | some s =>
    match s.takesValue, cs.dropWhile (· != '=') with
    | true, [] => .ok (st, some s)
    | true, _ :: value => do return (← st.setValue s (String.ofList value), none)
    | false, [] => do return (← st.setFlag s, none)
    | false, _ :: _ => .error .misuse

/-- Whether an argument starts like an option; a lone dash does not. -/
def looksLikeOption (arg : String) : Bool :=
  match arg.toList with
  | '-' :: _ :: _ => true
  | _ => false

/-- Reads what comes after the name of a command. The next argument is the value of `waiting`, if that is given. -/
def read (verb : Verb) (st : State) (waiting : Option Setting) : List String → Except Stop State
  | [] => if waiting.isSome then .error .misuse else .ok st
  | arg :: args =>
    match waiting with
    | some s =>
      if looksLikeOption arg then .error .misuse
      else do
        let st ← st.setValue s arg
        read verb st none args
    | none =>
      match arg.toList with
      | ['-', '-'] => args.foldlM (addOperand verb) st
      | '-' :: '-' :: cs => do
        let (st, waiting) ← st.readLong verb cs
        read verb st waiting args
      | '-' :: c :: cs => do
        let (st, waiting) ← st.readShort verb (c :: cs)
        read verb st waiting args
      | _ => do
        let st ← st.addOperand verb arg
        read verb st none args

/-- The command that has been read. -/
def request (verb : Verb) (st : State) : Request :=
  let schema := match st.schema with
    | some path => SchemaSource.file path
    | none => .standardInput
  let maxDepth := st.maxDepth.getD defaultMaxDepth
  match verb, st.operands with
  | .compile, [] => .misuse
  | .compile, fields => .run (.compile fields schema st.json maxDepth)
  | .check, [formula] => .run (.check formula schema maxDepth)
  | .functions, [] => .run .functions
  | .function, [name] => .run (.function name)
  | _, _ => .misuse

end State

/-- Reads short options before the name of a command. The result tells whether one of them was `v`. -/
def readLeading (verbose : Bool) : List Char → Except Request Bool
  | [] => .ok verbose
  | 'v' :: cs => if verbose then .error .misuse else readLeading true cs
  | 'V' :: _ => .error .version
  | 'h' :: _ => .error .help
  | _ => .error .misuse

/-- Whether the arguments after `help` name at most one command. -/
def isTopic : List String → Bool
  | [] => true
  | [topic] => (Verb.ofName? topic).isSome || topic == "help"
  | _ => false

/-- Reads arguments from the first on. -/
def read (verbose : Bool) : List String → Request
  | [] => .misuse
  | arg :: args =>
    match arg.toList with
    | '-' :: '-' :: cs =>
      match String.ofList cs with
      | "verbose" => if verbose then .misuse else read true args
      | "version" => .version
      | "help" => .help
      | _ => .misuse
    | '-' :: c :: cs =>
      match readLeading verbose (c :: cs) with
      | .ok verbose => read verbose args
      | .error r => r
    | _ =>
      match Verb.ofName? arg with
      | some verb =>
        match State.read verb .initial none args with
        | .ok st => st.request verb
        | .error stop => stop.request
      | none => if arg = "help" ∧ isTopic args then .help else .misuse

end Arguments

/-- What the arguments of the program ask for. -/
def Request.ofArguments (args : List String) : Request := Arguments.read false args

end FormulaQuery

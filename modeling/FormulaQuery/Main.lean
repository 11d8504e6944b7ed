import FormulaQuery.Command.Outcome

/-!
# The program

Reads the schema that a request needs, and prints its outcome.
-/

namespace FormulaQuery

/-- All that is left on a stream. -/
partial def readAll (stream : IO.FS.Stream) (text : String) : IO String := do
  let line ← stream.getLine
  if line.isEmpty then return text else readAll stream (text ++ line)

/-- The words for a fault of the file system, by its number. -/
def faultText? : Nat → Option String
  | 2 => some "No such file or directory"
  | 13 => some "Permission denied"
  | 20 => some "Not a directory"
  | 21 => some "Is a directory"
  | 36 => some "File name too long"
  | _ => none

/-- Why a file or stream cannot be read. The number of a fault may come with its sign changed. -/
def reason (e : IO.Error) : String :=
  match e with
  | .noFileOrDirectory _ code _ | .permissionDenied _ code _ | .inappropriateType _ code _
    | .invalidArgument _ code _ =>
    let number := min code.toNat (2 ^ 32 - code.toNat)
    match faultText? number with
    | some text => s!"{text} (os error {number})"
    | none => toString e
  | e => toString e

/-- The text of a schema. Without a file it has to be piped in. -/
def readSchema : SchemaSource → IO (Except CommandError String)
  | .file path => do
    try return .ok (← IO.FS.readFile path)
    catch e => return .error (.io (reason e))
  | .standardInput => do
    let stream ← IO.getStdin
    if ← stream.isTty then return .error .noSchema
    try return .ok (← readAll stream "")
    catch e => return .error (.io (reason e))

end FormulaQuery

open FormulaQuery in
def main (args : List String) : IO UInt32 := do
  let request := Request.ofArguments args
  let schema ← match request.schemaSource? with
    | some source => readSchema source
    | none => pure (.error .noSchema)
  let outcome := request.outcome schema
  IO.print outcome.output
  IO.eprint outcome.error
  return outcome.exitCode.toUInt32

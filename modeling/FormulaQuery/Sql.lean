import FormulaQuery.Text.Ascii

/-!
# SQL text

SQL is put together from pieces: bare text, quoted identifiers, columns of a source, and quoted literals. User text
only ever stands in a quoted piece, or bare as a plain table name or a number. Within quotes the quote itself is
doubled.
-/

namespace FormulaQuery

namespace Sql

inductive Piece where
  /-- Text that stands as it is. -/
  | bare (text : String)
  /-- A name in double quotes. -/
  | identifier (name : String)
  /-- A column of a source in the query. -/
  | column (source name : String)
  /-- A text in single quotes. -/
  | literal (text : String)
deriving DecidableEq, Repr

/-- A text between two quotes. -/
def enclose (quote : Char) (s : String) : List Char :=
  quote :: (s.toList.flatMap (fun c => if c = quote then [quote, quote] else [c]) ++ [quote])

def quoteIdentifier (name : String) : String := String.ofList (enclose '"' name)

def quoteLiteral (text : String) : String := String.ofList (enclose '\x27' text)

def Piece.text : Piece → String
  | bare s => s
  | identifier name => quoteIdentifier name
  | column source name => quoteIdentifier source ++ "." ++ quoteIdentifier name
  | literal s => quoteLiteral s

end Sql

structure Sql where
  pieces : List Sql.Piece
deriving DecidableEq, Repr

namespace Sql

instance : Append Sql := ⟨fun a b => ⟨a.pieces ++ b.pieces⟩⟩

instance : Coe String Sql := ⟨fun s => ⟨[.bare s]⟩⟩

def identifier (name : String) : Sql := ⟨[.identifier name]⟩

def column (source name : String) : Sql := ⟨[.column source name]⟩

def literal (text : String) : Sql := ⟨[.literal text]⟩

/-- The given parts with `separator` between them. -/
def join (separator : String) : List Sql → Sql
  | [] => ⟨[]⟩
  | [s] => s
  | s :: rest => s ++ separator ++ join separator rest

def text (s : Sql) : String := String.join (s.pieces.map Piece.text)

/-- A name that needs no quotes: a word, or two words with a point between them. -/
def isPlainTableName (name : String) : Bool :=
  let cs := name.toList
  Ascii.isWord (cs.takeWhile (· != '.')) &&
    match cs.dropWhile (· != '.') with
    | [] => true
    | _ :: rest => Ascii.isWord rest

/-- A table by its name, quoted unless the name is plain. -/
def table (name : String) : Sql := if isPlainTableName name then (name : Sql) else identifier name

end Sql

end FormulaQuery

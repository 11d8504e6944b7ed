import FormulaQuery.Json
import FormulaQuery.Json.Numeral
import FormulaQuery.Reading
import FormulaQuery.Text.Ascii

/-!
# Reading JSON

A strict reader: blanks are spaces, tabs and line ends only, strings hold no bare control characters, surrogate
escapes come in pairs, numbers have no leading zeros and have to have a value as doubles (`Numeral.value?`), and
values nest at most 127 deep. Of several members with one key the last counts. The error tells whether the text
ended too early.
-/

namespace FormulaQuery.Json

inductive ReadError where
  /-- The text ended within a value. -/
  | truncated
  | malformed
deriving DecidableEq, Repr

def ReadError.message : ReadError → String
  | truncated => "the text ends too early"
  | malformed => "the text is not a JSON value"

namespace Reader

/-- A value read off the front of a text. -/
abbrev Result (α : Type) (n : Nat) := Except ReadError (Reading Char α n)

def isBlank (c : Char) : Bool := c == ' ' || c == '\t' || c == '\n' || c == '\r'

def skip (cs : List Char) : List Char := cs.dropWhile isBlank

theorem length_skip_le (cs : List Char) : (skip cs).length ≤ cs.length :=
  (List.dropWhile_sublist isBlank).length_le

theorem length_lt_of_skip {cs r : List Char} {c : Char} (h : skip cs = c :: r) : r.length < cs.length := by
  have := length_skip_le cs
  rw [h, List.length_cons] at this
  omega

/-- Reads the given characters. -/
def expect : (word cs : List Char) → Result PUnit (cs.length + 1)
  | [], cs => .ok ⟨(), cs, by simp⟩
  | _ :: _, [] => .error .truncated
  | w :: word, c :: cs =>
    if w = c then do
      let r ← expect word cs
      return r.weaken (by simp)
    else .error .malformed

/-! ### Numbers -/

/-- A run of digits, which may not be empty. -/
def digits (cs : List Char) : Result (List Char) cs.length :=
  match cs with
  | [] => .error .truncated
  | c :: r =>
    if Ascii.isDigit c then
      .ok ⟨c :: r.takeWhile Ascii.isDigit, r.dropWhile Ascii.isDigit,
        Nat.lt_succ_of_le (List.dropWhile_sublist Ascii.isDigit).length_le⟩
    else .error .malformed

/-- Digits without a leading zero. -/
def wholeDigits (cs : List Char) : Result (List Char) cs.length := do
  let r ← digits cs
  match r.value with
  | '0' :: _ :: _ => .error .malformed
  | _ => return r

/-- The digits after a point, if there is one. -/
def fractionDigits (cs : List Char) : Result (List Char) (cs.length + 1) :=
  match cs with
  | '.' :: r => do
    let d ← digits r
    return d.weaken (Nat.le_add_right r.length 2)
  | cs => .ok ⟨[], cs, by simp⟩

/-- The power of ten after the mark `e`, if there is one. -/
def power (cs : List Char) : Result Int (cs.length + 1) :=
  match cs with
  | c :: '-' :: r =>
    if c = 'e' ∨ c = 'E' then do
      let d ← digits r
      return (d.map fun ds => -(Ascii.digitsValue ds : Int)).weaken (Nat.le_add_right r.length 3)
    else .ok ⟨0, c :: '-' :: r, by simp⟩
  | c :: '+' :: r =>
    if c = 'e' ∨ c = 'E' then do
      let d ← digits r
      return (d.map fun ds => (Ascii.digitsValue ds : Int)).weaken (Nat.le_add_right r.length 3)
    else .ok ⟨0, c :: '+' :: r, by simp⟩
  | c :: r =>
    if c = 'e' ∨ c = 'E' then do
      let d ← digits r
      return (d.map fun ds => (Ascii.digitsValue ds : Int)).weaken (Nat.le_add_right r.length 2)
    else .ok ⟨0, c :: r, by simp⟩
  | [] => .ok ⟨0, [], by simp⟩

/-- A number without its sign. -/
def number (negative : Bool) (cs : List Char) : Result Json cs.length := do
  let whole ← wholeDigits cs
  let fraction ← fractionDigits whole.rest
  let exponent ← power fraction.rest
  match Numeral.value? ⟨negative, whole.value, fraction.value, exponent.value⟩ with
  | none => .error .malformed
  | some value => return ⟨.number value, exponent.rest,
    Nat.lt_of_lt_of_le exponent.lt (Nat.le_trans fraction.lt whole.lt)⟩

/-! ### Strings -/

def hexValue? (c : Char) : Option Nat :=
  if Ascii.isDigit c then some (c.toNat - '0'.toNat)
  else if 'a' ≤ c ∧ c ≤ 'f' then some (c.toNat - 'a'.toNat + 10)
  else if 'A' ≤ c ∧ c ≤ 'F' then some (c.toNat - 'A'.toNat + 10)
  else none

/-- Four hexadecimal digits.  A text of fewer than four bytes counts as cut off, whatever it holds. -/
def hexCode (cs : List Char) : Result Nat cs.length :=
  match cs with
  | a :: b :: c :: d :: r =>
    match hexValue? a, hexValue? b, hexValue? c, hexValue? d with
    | some a, some b, some c, some d =>
      .ok ⟨((a * 16 + b) * 16 + c) * 16 + d, r, Nat.lt_add_of_pos_right (Nat.succ_pos 3)⟩
    | _, _, _, _ => .error .malformed
  | cs => if 4 ≤ (String.ofList cs).utf8ByteSize then .error .malformed else .error .truncated

/-- The character of an escape that begins with `u`.  Beyond the first plane it is written as two escapes. -/
def codeEscape (cs : List Char) : Result Char cs.length := do
  let high ← hexCode cs
  if 0xDC00 ≤ high.value ∧ high.value ≤ 0xDFFF then .error .malformed
  else if high.value < 0xD800 ∨ 0xDBFF < high.value then return high.map Char.ofNat
  else
    let mark ← expect ['\\', 'u'] high.rest
    let low ← hexCode mark.rest
    if 0xDC00 ≤ low.value ∧ low.value ≤ 0xDFFF then
      return (low.map fun l => Char.ofNat ((high.value - 0xD800) * 0x400 + (l - 0xDC00) + 0x10000)).weaken
        (Nat.le_of_lt (Nat.lt_of_lt_of_le mark.lt high.lt))
    else .error .malformed

/-- The character of an escape whose backslash is already read. -/
def escape (cs : List Char) : Result Char cs.length :=
  match cs with
  | [] => .error .truncated
  | c :: r =>
    match c with
    | '"' => .ok ⟨'"', r, by simp⟩
    | '\\' => .ok ⟨'\\', r, by simp⟩
    | '/' => .ok ⟨'/', r, by simp⟩
    | 'b' => .ok ⟨'\x08', r, by simp⟩
    | 'f' => .ok ⟨'\x0C', r, by simp⟩
    | 'n' => .ok ⟨'\n', r, by simp⟩
    | 'r' => .ok ⟨'\r', r, by simp⟩
    | 't' => .ok ⟨'\t', r, by simp⟩
    | 'u' => do
      let e ← codeEscape r
      return e.weaken (by simp)
    | _ => .error .malformed

/-- A string whose opening quote is already read. -/
def string (cs : List Char) : Result (List Char) cs.length :=
  match cs with
  | [] => .error .truncated
  | c :: r =>
    if c = '"' then .ok ⟨[], r, by simp⟩
    else if c = '\\' then do
      let e ← escape r
      have := e.lt
      let s ← string e.rest
      return (s.map (e.value :: ·)).weaken (Nat.le_succ_of_le (Nat.le_of_lt e.lt))
    else if c.toNat < 0x20 then .error .malformed
    else do
      let s ← string r
      return (s.map (c :: ·)).weaken (by simp)
termination_by cs.length
decreasing_by all_goals (simp only [List.length_cons]; omega)

/-! ### Values -/

mutual

/-- A value that nests at most `depth` deep. -/
def value (depth : Nat) (cs : List Char) : Result Json cs.length :=
  match h : skip cs with
  | [] => .error .truncated
  | c :: r =>
    have hr := length_lt_of_skip h
    if c = '"' then do
      let s ← string r
      return (s.map fun s => .string (String.ofList s)).weaken (Nat.le_of_lt hr)
    else if c = '[' then
      match depth with
      | 0 => .error .malformed
      | depth + 1 =>
        match h' : skip r with
        | ']' :: r' => .ok ⟨.array [], r', Nat.lt_trans (length_lt_of_skip h') hr⟩
        | _ => do
          let items ← elements depth r
          return (items.map .array).weaken (Nat.le_of_lt hr)
    else if c = '\x7b' then
      match depth with
      | 0 => .error .malformed
      | depth + 1 =>
        match h' : skip r with
        | '\x7d' :: r' => .ok ⟨.object .empty, r', Nat.lt_trans (length_lt_of_skip h') hr⟩
        | _ => do
          let entries ← members depth r
          return (entries.map fun es => .object (.ofList es)).weaken (Nat.le_of_lt hr)
    else if c = '-' then do
      let n ← number true r
      return n.weaken (Nat.le_of_lt hr)
    else if Ascii.isDigit c then do
      let n ← number false (c :: r)
      return n.weaken hr
    else if c = 'n' then do
      let w ← expect "ull".toList r
      return (w.map fun _ => .null).weaken hr
    else if c = 't' then do
      let w ← expect "rue".toList r
      return (w.map fun _ => .bool true).weaken hr
    else if c = 'f' then do
      let w ← expect "alse".toList r
      return (w.map fun _ => .bool false).weaken hr
    else .error .malformed
termination_by 2 * cs.length

/-- The values of an array up to its closing bracket. -/
def elements (depth : Nat) (cs : List Char) : Result (List Json) cs.length := do
  let v ← value depth cs
  have := v.lt
  match h : skip v.rest with
  | ',' :: r =>
    have := length_lt_of_skip h
    let more ← elements depth r
    return (more.map (v.value :: ·)).weaken (Nat.le_of_lt (Nat.lt_trans (length_lt_of_skip h) v.lt))
  | ']' :: r => return ⟨[v.value], r, Nat.lt_trans (length_lt_of_skip h) v.lt⟩
  | [] => .error .truncated
  | _ => .error .malformed
termination_by 2 * cs.length + 1

/-- The members of an object up to its closing brace. -/
def members (depth : Nat) (cs : List Char) : Result (List (String × Json)) cs.length :=
  match h : skip cs with
  | [] => .error .truncated
  | '"' :: r => do
    have := length_lt_of_skip h
    let key ← string r
    have := key.lt
    match h₁ : skip key.rest with
    | ':' :: r₁ =>
      have := length_lt_of_skip h₁
      let v ← value depth r₁
      have hv := Nat.lt_trans v.lt (Nat.lt_trans (length_lt_of_skip h₁) (Nat.lt_trans key.lt (length_lt_of_skip h)))
      let entry := (String.ofList key.value, v.value)
      match h₂ : skip v.rest with
      | ',' :: r₂ =>
        have := length_lt_of_skip h₂
        let more ← members depth r₂
        return (more.map (entry :: ·)).weaken (Nat.le_of_lt (Nat.lt_trans (length_lt_of_skip h₂) hv))
      | '\x7d' :: r₂ => return ⟨[entry], r₂, Nat.lt_trans (length_lt_of_skip h₂) hv⟩
      | [] => .error .truncated
      | _ => .error .malformed
    | [] => .error .truncated
    | _ => .error .malformed
  | _ => .error .malformed
termination_by 2 * cs.length + 1

end

end Reader

/-- How deep values may nest. -/
def maxDepth : Nat := 127

/-- The value that a text spells. -/
def parse (s : String) : Except ReadError Json := do
  let v ← Reader.value maxDepth s.toList
  match Reader.skip v.rest with
  | [] => return v.value
  | _ => .error .malformed

end FormulaQuery.Json

import FormulaQuery.Text.Ascii

/-!
# Calendar dates

Dates are written as four digits of the year, two of the month and two of the day, and name a day of the Gregorian
calendar, which is extended back to the year 0.
-/

namespace FormulaQuery.Calendar

def isLeapYear (year : Nat) : Bool := year % 4 == 0 && (year % 100 != 0 || year % 400 == 0)

def daysInMonth (year month : Nat) : Nat :=
  match month with
  | 2 => if isLeapYear year then 29 else 28
  | 4 | 6 | 9 | 11 => 30
  | _ => 31

/-- Whether there is such a day. -/
def isDay (year month day : Nat) : Bool :=
  1 ≤ month && month ≤ 12 && 1 ≤ day && day ≤ daysInMonth year month

/-- Whether a text is a date. -/
def isDate : List Char → Bool
  | [y₁, y₂, y₃, y₄, '-', m₁, m₂, '-', d₁, d₂] =>
    [y₁, y₂, y₃, y₄, m₁, m₂, d₁, d₂].all Ascii.isDigit &&
      isDay (Ascii.digitsValue [y₁, y₂, y₃, y₄]) (Ascii.digitsValue [m₁, m₂]) (Ascii.digitsValue [d₁, d₂])
  | _ => false

end FormulaQuery.Calendar

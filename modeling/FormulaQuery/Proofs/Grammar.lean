import FormulaQuery.Proofs.NumberText
import FormulaQuery.Proofs.Printing
import FormulaQuery.Query

/-!
# The grammar of printed queries

All that is ever printed comes from a fixed list of frames, whose gaps hold other printed parts, from lists with
fixed separators, and from numbers, tables, names and texts: `Sql.Printed`. What is said of printed SQL is then
proved by one induction over this grammar, and not for every operator, function and clause anew. Expressions are
printed as `Sql.Closed` only, which leaves out frames that do not hold their parts together.
-/

namespace FormulaQuery

namespace Sql

/-! ### Frames -/

/-- The words of a query, those that every query may have included: the names of tables, the names that the query
introduces itself, the names of columns, and texts. -/
structure Vocabulary where
  table : String → Prop
  label : String → Prop
  column : String → Prop
  text : String → Prop
  label_of_fixed : ∀ n ∈ [baseAlias, groupKey], label n
  column_of_fixed : ∀ n ∈ [primaryKey, groupKey], column n
  text_of_fixed : ∀ t ∈ [",", "", "1 day"], text t

/-- Puts parts into the gaps of a frame, one after another. -/
def fill : List (Option String) → List Sql → Sql
  | [], _ => ⟨[]⟩
  | some t :: frame, parts => (t : Sql) ++ fill frame parts
  | none :: frame, part :: parts => part ++ fill frame parts
  | none :: frame, [] => fill frame []

/-- Functions that are printed under their own names. -/
def ownNames : List String := ["ABS", "FLOOR", "SQRT", "POWER", "UPPER", "LOWER", "TRIM", "LEFT", "RIGHT"]

def expressionFrames : List (List (Option String)) :=
  [[some "TRUE"], [some "FALSE"], [some "NULL"], [some "0"], [some "CURRENT_DATE"], [some "DATE ", none],
    [some "(-", none, some ")"], [none, some " * INTERVAL ", none],
    [some "(", none, some "::date - ", none, some "::date)"],
    [some "(", none, some " + ", none, some ")::date"],
    [some "(", none, some " / NULLIF(", none, some ", 0))"], [some "(", none, some " IS NULL)"],
    [some "CASE WHEN ", none, some " THEN ", none, some " ELSE ", none, some " END"], [some "(", none, some ")"],
    [some "(", some ")"], [some "(NOT ", none, some ")"], [some "COALESCE(", none, some ", ", none, some ")"],
    [some "ROUND((", none, some ")::numeric, ", none, some ")"],
      [some "(STRPOS(", none, some ", ", none, some ") > 0)"],
    [some "CAST(", none, some " AS TEXT)"], [some "EXTRACT(YEAR FROM AGE(", none, some ", ", none, some "))"],
    [some "(", none, some " * 12 + EXTRACT(MONTH FROM AGE(", none, some ", ", none, some ")))"],
    [some "STRING_AGG(", none, some ", ", none, some ")"],
      [some "STRING_AGG(DISTINCT ", none, some ", ", none, some ")"]]
  ++ (["+", "-", "*", "||", "=", "<>", "<", ">", "<=", ">="].map fun symbol =>
    [some "(", none, some " ", some symbol, some " ", none, some ")"])
  ++ (["+", "-"].map fun symbol => [some "(", none, some " ", some symbol, some " ", none, some ")::date"])
  ++ (["IS NULL", "IS NOT NULL"].map fun test => [some "(", none, some " ", some test, some ")"])
  ++ (["CEIL(", "LENGTH(", "SUM(", "COUNT(", "AVG(", "MIN(", "MAX(", "BOOL_AND(", "BOOL_OR("].map fun call =>
    [some call, none, some ")"])
  ++ (["YEAR", "MONTH", "DAY"].map fun part => [some "EXTRACT(", some part, some " FROM ", none, some ")"])
  ++ (ownNames.map fun name => [some name, some "(", none, some ")"])
  ++ ownNames.map fun name => [some name, some "(", some ")"]

def queryFrames : List (List (Option String)) :=
  [[none, some " AS ", none], [some "FROM ", none, some " ", none], [some "    FROM ", none, some " ", none],
    [some "    ", none], [some "LEFT JOIN ", none, some " ", none, some " ON ", none, some " = ", none],
    [some "    JOIN ", none, some " ", none, some " ON ", none, some " = ", none],
    [some "LEFT JOIN (\n    SELECT ", none, some "\n", none, some "\n    GROUP BY ", none, some "\n) ", none,
      some " ON ", none, some " = ", none], [some "SELECT\n  ", none, some "\n", none]]

def frames : List (List (Option String)) := expressionFrames ++ queryFrames

def separators : List String := [" AND ", " OR ", ", ", "\n", ",\n  "]

/-- SQL that is put together from frames, lists, numbers and words of a vocabulary. -/
inductive Printed (v : Vocabulary) : Sql → Prop
  | fill {frame : List (Option String)} {parts : List Sql} (hf : frame ∈ frames)
    (hlength : frame.count none = parts.length) (hp : ∀ p ∈ parts, Printed v p) : Printed v (fill frame parts)
  | join {separator : String} {parts : List Sql} (hs : separator ∈ separators) (hne : parts ≠ [])
    (hp : ∀ p ∈ parts, Printed v p) : Printed v (join separator parts)
  | number {t : String} (h : IsNumberText t.toList) : Printed v (t : Sql)
  | table {n : String} (h : v.table n) : Printed v (table n)
  | label {n : String} (h : v.label n) : Printed v (identifier n)
  | column {source n : String} (hs : v.label source) (h : v.column n) : Printed v (column source n)
  | literal {t : String} (h : v.text t) : Printed v (literal t)

/-- Frames that hold their parts together: all but those that begin with a part or with no more than a word before
it. -/
def closedFrames : List (List (Option String)) :=
  expressionFrames.filter fun frame => frame.head? ∉ [some none, some (some "DATE ")]

/-- SQL that is one of these frames, whatever is printed in it, or a number, column, text or date. -/
inductive Closed (v : Vocabulary) : Sql → Prop
  | fill {frame : List (Option String)} {parts : List Sql} (hf : frame ∈ closedFrames)
    (hlength : frame.count none = parts.length) (hp : ∀ p ∈ parts, Printed v p) : Closed v (fill frame parts)
  | number {t : String} (h : IsNumberText t.toList) : Closed v (t : Sql)
  | column {source n : String} (hs : v.label source) (h : v.column n) : Closed v (column source n)
  | literal {t : String} (h : v.text t) : Closed v (literal t)
  | date {t : String} (h : v.text t) : Closed v ("DATE " ++ literal t)

/-! ### Pieces -/

/-- The texts of frames and separators. -/
def fixedTexts : List String := frames.flatMap (fun frame => frame.filterMap id) ++ separators

/-- A piece whose quoted words are in the vocabulary, or whose text is fixed, a number or a plain table name. -/
def Piece.IsFrom (v : Vocabulary) : Piece → Prop
  | bare t => t ∈ fixedTexts ∨ IsNumberText t.toList ∨ isPlainTableName t = true ∧ v.table t
  | identifier n => v.table n ∨ v.label n
  | column source n => v.label source ∧ v.column n
  | literal t => v.text t

private theorem mem_pieces_fill {frame : List (Option String)} {parts : List Sql} {piece : Piece}
    (h : piece ∈ (fill frame parts).pieces) : (∃ t, some t ∈ frame ∧ piece = .bare t) ∨
      ∃ p ∈ parts, piece ∈ p.pieces := by
  induction frame, parts using fill.induct with
  | case1 => cases h
  | case2 t frame parts ih =>
    rcases List.mem_cons.1 h with rfl | h
    · exact Or.inl ⟨t, List.mem_cons_self, rfl⟩
    · rcases ih h with ⟨u, hu, rfl⟩ | h
      · exact Or.inl ⟨u, List.mem_cons_of_mem _ hu, rfl⟩
      · exact Or.inr h
  | case3 frame part parts ih =>
    rcases List.mem_append.1 h with h | h
    · exact Or.inr ⟨part, List.mem_cons_self, h⟩
    · rcases ih h with ⟨u, hu, rfl⟩ | ⟨p, hp, h⟩
      · exact Or.inl ⟨u, List.mem_cons_of_mem _ hu, rfl⟩
      · exact Or.inr ⟨p, List.mem_cons_of_mem _ hp, h⟩
  | case4 frame ih =>
    rcases ih h with ⟨u, hu, rfl⟩ | h
    · exact Or.inl ⟨u, List.mem_cons_of_mem _ hu, rfl⟩
    · exact Or.inr h

private theorem mem_pieces_join {separator : String} {parts : List Sql} {piece : Piece}
    (h : piece ∈ (join separator parts).pieces) : piece = .bare separator ∨ ∃ p ∈ parts, piece ∈ p.pieces := by
  induction parts using join.induct with
  | case1 => cases h
  | case2 p => exact Or.inr ⟨p, List.mem_cons_self, h⟩
  | case3 p parts hne ih =>
    rw [join.eq_3 separator p parts hne] at h
    rcases List.mem_append.1 h with h | h
    · rcases List.mem_append.1 h with h | h
      · exact Or.inr ⟨p, List.mem_cons_self, h⟩
      · exact Or.inl (List.mem_singleton.1 h)
    · rcases ih h with h | ⟨q, hq, h⟩
      · exact Or.inl h
      · exact Or.inr ⟨q, List.mem_cons_of_mem _ hq, h⟩

/-- Outside quotes there is nothing but fixed texts, numbers and plain table names. -/
theorem Printed.isFrom {v : Vocabulary} {s : Sql} (h : Printed v s) : ∀ piece ∈ s.pieces, piece.IsFrom v := by
  intro piece hpiece
  induction h with
  | @fill frame parts hf _ _ ih =>
    rcases mem_pieces_fill hpiece with ⟨t, ht, rfl⟩ | ⟨p, hp, hpiece⟩
    · exact Or.inl (List.mem_append_left _ (List.mem_flatMap.2 ⟨frame, hf, List.mem_filterMap.2 ⟨some t, ht, rfl⟩⟩))
    · exact ih p hp hpiece
  | join hs _ _ ih =>
    rcases mem_pieces_join hpiece with rfl | ⟨p, hp, hpiece⟩
    · exact Or.inl (List.mem_append_right _ hs)
    · exact ih p hp hpiece
  | number h =>
    rw [List.mem_singleton.1 hpiece]
    exact Or.inr (Or.inl h)
  | table h =>
    unfold Sql.table at hpiece
    split at hpiece
    · rename_i hplain
      rw [List.mem_singleton.1 hpiece]
      exact Or.inr (Or.inr ⟨hplain, h⟩)
    · rw [List.mem_singleton.1 hpiece]
      exact Or.inl h
  | label h =>
    rw [List.mem_singleton.1 hpiece]
    exact Or.inr h
  | column hs h =>
    rw [List.mem_singleton.1 hpiece]
    exact ⟨hs, h⟩
  | literal h =>
    rw [List.mem_singleton.1 hpiece]
    exact h

/-! ### Putting parts together -/

theorem append_assoc (a b c : Sql) : a ++ b ++ c = a ++ (b ++ c) :=
  congrArg Sql.mk (List.append_assoc a.pieces b.pieces c.pieces)

theorem append_nil (a : Sql) : a ++ (⟨[]⟩ : Sql) = a :=
  congrArg Sql.mk (List.append_nil a.pieces)

private theorem Printed.of_fill {v : Vocabulary} (frame : List (Option String)) (parts : List Sql) {s : Sql}
    (hs : s = Sql.fill frame parts) (hf : frame ∈ frames) (hlength : frame.count none = parts.length)
    (hp : ∀ p ∈ parts, Printed v p) : Printed v s :=
  hs ▸ .fill hf hlength hp

theorem Closed.printed {v : Vocabulary} {s : Sql} (h : Closed v s) : Printed v s := by
  cases h with
  | fill hf hlength hp => exact .fill (List.mem_append_left _ (List.mem_of_mem_filter hf)) hlength hp
  | number h => exact .number h
  | column hs h => exact .column hs h
  | literal h => exact .literal h
  | @date t h => exact .of_fill [some "DATE ", none] [Sql.literal t] rfl (by decide) rfl (by simpa using .literal h)

private theorem Printed.days {v : Vocabulary} {p : Sql} (h : Printed v p) : Printed v (Expression.days p) := by
  have hday : Printed v (Sql.literal "1 day") := .literal (v.text_of_fixed _ (by decide))
  refine of_fill [none, some " * INTERVAL ", none] [p, Sql.literal "1 day"] ?_ (by decide) rfl (by simp [h, hday])
  simp only [Expression.days, Sql.fill, append_assoc, append_nil]

private theorem Printed.getD {v : Vocabulary} {q : Sql} {ps : List Sql} (hp : ∀ p ∈ ps, Printed v p) (i : Nat)
    (hq : Printed v q) : Printed v (ps.getD i q) := by
  rw [List.getD_eq_getElem?_getD]
  cases h : ps[i]? with
  | none => exact hq
  | some p => exact hp p (List.mem_of_getElem? h)

namespace Closed

variable {v : Vocabulary} {p q r : Sql}

private theorem of_fill (frame : List (Option String)) (parts : List Sql) {s : Sql} (hs : s = Sql.fill frame parts)
    (hf : frame ∈ closedFrames) (hlength : frame.count none = parts.length) (hp : ∀ p ∈ parts, Printed v p) :
    Closed v s :=
  hs ▸ .fill hf hlength hp

theorem word {t : String} (hf : [some t] ∈ closedFrames) : Closed v (t : Sql) :=
  of_fill [some t] [] rfl hf rfl (List.forall_mem_nil _)

theorem one {before after : String} (hf : [some before, none, some after] ∈ closedFrames) (hp : Printed v p) :
    Closed v (before ++ p ++ after) := by
  refine of_fill [some before, none, some after] [p] ?_ hf rfl (by simpa using hp)
  simp only [Sql.fill, append_assoc, append_nil]

theorem two {before between after : String}
    (hf : [some before, none, some between, none, some after] ∈ closedFrames)
    (hp : Printed v p) (hq : Printed v q) : Closed v (before ++ p ++ between ++ q ++ after) := by
  refine of_fill [some before, none, some between, none, some after] [p, q] ?_ hf rfl (by simp [hp, hq])
  simp only [Sql.fill, append_assoc, append_nil]

private theorem operator {symbol after : String} (hp : Printed v p) (hq : Printed v q)
    (hf : [some "(", none, some " ", some symbol, some " ", none, some after] ∈ closedFrames) :
    Closed v ("(" ++ p ++ (" " ++ symbol ++ " ") ++ q ++ after) := by
  refine of_fill [some "(", none, some " ", some symbol, some " ", none, some after] [p, q] ?_ hf rfl
    (by simp [hp, hq])
  simp only [Sql.fill, append_assoc, append_nil]

private theorem binarySql (op : BinaryOperator) (left right : Expression) (hp : Printed v p) (hq : Printed v q) :
    Closed v (Expression.binarySql op left right p q) := by
  have hnull : ∀ {test : String}, [some "(", none, some " ", some test, some ")"] ∈ closedFrames →
      Closed v ("(" ++ (if right.isNull then p else q) ++ (" " ++ test) ++ ")") := by
    intro test hf
    refine of_fill [some "(", none, some " ", some test, some ")"] [if right.isNull then p else q] ?_ hf rfl ?_
    · simp only [Sql.fill, append_assoc, append_nil]
    · intro s hs
      rw [List.mem_singleton.1 hs]
      split
      · exact hp
      · exact hq
  unfold Expression.binarySql
  cases op with
  | add =>
    dsimp only
    split
    · split
      · exact two (by decide) hp hq
      · exact operator hp hq.days (by decide)
    · split
      · exact two (by decide) hq hp.days
      · exact operator hp hq (by decide)
  | subtract =>
    dsimp only
    split
    · split
      · exact two (by decide) hp hq
      · exact operator hp hq.days (by decide)
    · exact operator hp hq (by decide)
  | equal | notEqual =>
    dsimp only
    split
    · exact hnull (by decide)
    · exact operator hp hq (by decide)
  | divide => exact two (by decide) hp hq
  | multiply | concat | less | greater | lessEqual | greaterEqual => exact operator hp hq (by decide)

private theorem dateDifferenceSql (unit : Option Expression) (hp : Printed v p) (hq : Printed v q) :
    Closed v (Expression.dateDifferenceSql unit p q) := by
  have hyears : Closed v ("EXTRACT(YEAR FROM AGE(" ++ q ++ ", " ++ p ++ "))") := two (by decide) hq hp
  unfold Expression.dateDifferenceSql
  dsimp only
  split
  · refine of_fill [some "(", none, some " * 12 + EXTRACT(MONTH FROM AGE(", none, some ", ", none, some ")))"]
      ["EXTRACT(YEAR FROM AGE(" ++ q ++ ", " ++ p ++ "))", q, p] ?_ (by decide) rfl (by simp [hyears.printed, hp, hq])
    simp only [Sql.fill, append_assoc, append_nil]
  · exact hyears
  · exact two (by decide) hq hp

/-- A list in parentheses, which may be empty. -/
theorem parenthesized {separator : String} {ps : List Sql} (hs : separator ∈ separators)
    (hp : ∀ p ∈ ps, Printed v p) : Closed v ("(" ++ Sql.join separator ps ++ ")") := by
  by_cases hps : ps = []
  · rw [hps]
    exact of_fill [some "(", some ")"] [] rfl (by decide) rfl (List.forall_mem_nil _)
  · exact one (by decide) (.join hs hps hp)

/-- A list as the arguments of a function, of which there may be none. -/
theorem arguments {name : String} {ps : List Sql} (hn : name ∈ ownNames) (hp : ∀ p ∈ ps, Printed v p) :
    Closed v (name ++ "(" ++ Sql.join ", " ps ++ ")") := by
  have hframes : ∀ n ∈ ownNames,
      [some n, some "(", none, some ")"] ∈ closedFrames ∧ [some n, some "(", some ")"] ∈ closedFrames := by
    decide
  by_cases hps : ps = []
  · rw [hps]
    exact of_fill [some name, some "(", some ")"] [] rfl (hframes name hn).2 rfl (List.forall_mem_nil _)
  · refine of_fill [some name, some "(", none, some ")"] [Sql.join ", " ps] ?_ (hframes name hn).1 rfl ?_
    · simp only [Sql.fill, append_assoc, append_nil]
    · intro p h
      rw [List.mem_singleton.1 h]
      exact .join (by decide) hps hp

private theorem extract {part : String}
    (hf : [some "EXTRACT(", some part, some " FROM ", none, some ")"] ∈ closedFrames)
    (hp : Printed v p) : Closed v ("EXTRACT(" ++ part ++ " FROM " ++ p ++ ")") := by
  refine of_fill [some "EXTRACT(", some part, some " FROM ", none, some ")"] [p] ?_ hf rfl (by simpa using hp)
  simp only [Sql.fill, append_assoc, append_nil]

private theorem conditional (hp : Printed v p) (hq : Printed v q) (hr : Printed v r) :
    Closed v ("CASE WHEN " ++ p ++ " THEN " ++ q ++ " ELSE " ++ r ++ " END") := by
  refine of_fill [some "CASE WHEN ", none, some " THEN ", none, some " ELSE ", none, some " END"] [p, q, r] ?_
    (by decide)
    rfl (by simp [hp, hq, hr])
  simp only [Sql.fill, append_assoc, append_nil]

private theorem callSql {function : String} {args : List Expression} {ps : List Sql} (hp : ∀ p ∈ ps, Printed v p)
    {s : Sql} (h : Expression.callSql? function args ps = some s) : Closed v s := by
  have harg : ∀ i, Printed v (ps.getD i "NULL") := fun i => .getD hp i (word (by decide)).printed
  unfold Expression.callSql? at h
  dsimp only at h
  split at h <;> cases h
  -- `IF`, `AND` and `OR`
  case h_1 => exact conditional (harg 0) (harg 1) (harg 2)
  case h_2 | h_3 => exact parenthesized (by decide) hp
  -- calls of one argument and of two, of which `ROUND` may lack the second
  case h_4 | h_5 | h_16 | h_18 | h_20 => exact one (by decide) (harg 0)
  case h_6 | h_19 => exact two (by decide) (harg 0) (harg 1)
  case h_17 => exact two (by decide) (harg 0) (.getD hp 1 (word (by decide)).printed)
  -- dates
  case h_21 => exact word (by decide)
  case h_22 | h_23 | h_24 => exact extract (by decide) (harg 0)
  case h_25 => exact dateDifferenceSql _ (harg 0) (harg 1)
  -- functions that keep their names
  all_goals exact arguments (by decide) hp

end Closed

end Sql

open Sql (Vocabulary Printed Closed)

variable {v : Vocabulary}

/-! ### Expressions -/

theorem AggregateFunction.printed_toSql (f : AggregateFunction) {value : Sql} {delimiter : Option Sql}
    (hvalue : Printed v value) (hdelimiter : ∀ d ∈ delimiter, Printed v d) : Printed v (f.toSql value delimiter) := by
  have hd : Printed v (delimiter.getD (Sql.literal ",")) := by
    cases delimiter with
    | none => exact .literal (v.text_of_fixed _ (by decide))
    | some d => exact hdelimiter d rfl
  cases f with
  | stringAgg | stringAggDistinct => exact (Closed.two (by decide) hvalue hd).printed
  | _ => exact (Closed.one (by decide) hvalue).printed

private theorem AggregateColumn.closed_toSql {c : AggregateColumn} (hs : v.label c.source) (hc : v.column c.column) :
    Closed v c.toSql := by
  have hcolumn : Closed v (Sql.column c.source c.column) := .column hs hc
  unfold AggregateColumn.toSql
  cases c.function with
  | sum | count | and | or => exact .two (by decide) hcolumn.printed (Closed.word (by decide)).printed
  | stringAgg | stringAggDistinct => exact .two (by decide) hcolumn.printed (.literal (v.text_of_fixed _ (by decide)))
  | avg | min | max => exact hcolumn

namespace Expression

/-- All that an expression prints by itself is a number or in the vocabulary. -/
structure Speaks (v : Vocabulary) (s : Sources) (e : Expression) : Prop where
  number : ∀ info n, (Expression.number info n).Within e → IsNumberText (Decimal96.text n).toList
  string : ∀ info t, (Expression.string info t).Within e → v.text t
  date : ∀ info t, (Expression.date info t).Within e → v.text t
  column : ∀ info name, (Expression.column info name).Within e → v.label s.table ∧ v.column name
  related : ∀ info join name, (Expression.related info join name).Within e →
    ∀ label, s.joins.lookup join = some label → v.label label ∧ v.column name
  aggregate : ∀ info ref, (Expression.aggregate info ref).Within e →
    ∀ c, s.aggregates.lookup ref = some c → v.label c.source ∧ v.column c.column

variable {s : Sources} {e : Expression}

private theorem Speaks.child (h : e.Speaks v s) {c : Expression} (hc : c ∈ e.children) : c.Speaks v s :=
  ⟨fun i n hw => h.number i n (.child hc hw), fun i t hw => h.string i t (.child hc hw),
    fun i t hw => h.date i t (.child hc hw), fun i n hw => h.column i n (.child hc hw),
    fun i j n hw => h.related i j n (.child hc hw), fun i r hw => h.aggregate i r (.child hc hw)⟩

private theorem printed_allToSql {args : List Expression} (h : ∀ c ∈ args, ∀ sql, c.toSql s = .ok sql → Printed v sql)
    {printed : List Sql} (hp : allToSql s args = .ok printed) : ∀ p ∈ printed, Printed v p := by
  induction args generalizing printed with
  | nil =>
    cases hp
    exact nofun
  | cons c args ih =>
    rw [allToSql] at hp
    obtain ⟨p, hc, hp⟩ := bind_eq_ok hp
    obtain ⟨more, hmore, hp⟩ := bind_eq_ok hp
    cases hp
    refine List.forall_mem_cons.2 ⟨h c List.mem_cons_self p hc,
      ih (fun d hd => h d (List.mem_cons_of_mem _ hd)) hmore⟩

/-- What an expression prints follows the grammar and holds together. -/
theorem closed_toSql (h : e.Speaks v s) {sql : Sql} (hsql : e.toSql s = .ok sql) : Closed v sql := by
  induction e using children_induction generalizing sql with
  | step e ih =>
    have hc : ∀ c ∈ e.children, ∀ sql, c.toSql s = .ok sql → Printed v sql := fun c hc sql hsql =>
      (ih c hc (h.child hc) hsql).printed
    unfold toSql at hsql
    cases e with
    | number info n =>
      cases hsql
      exact .number (h.number info n (.refl _))
    | string info t =>
      cases hsql
      exact .literal (h.string info t (.refl _))
    | boolean info b =>
      cases hsql
      cases b with
      | false => exact .word (by decide)
      | true => exact .word (by decide)
    | null info =>
      cases hsql
      exact .word (by decide)
    | date info t =>
      cases hsql
      exact .date (h.date info t (.refl _))
    | column info name =>
      cases hsql
      exact .column (h.column info name (.refl _)).1 (h.column info name (.refl _)).2
    | related info join name =>
      dsimp only at hsql
      split at hsql
      · rename_i label hlabel
        cases hsql
        have hnames := h.related info join name (.refl _) label hlabel
        exact .column hnames.1 hnames.2
      · cases hsql
    | negate info operand =>
      obtain ⟨p, hp, hsql⟩ := bind_eq_ok hsql
      cases hsql
      exact .one (by decide) (hc operand List.mem_cons_self p hp)
    | binary info op left right =>
      obtain ⟨l, hl, hsql⟩ := bind_eq_ok hsql
      obtain ⟨r, hr, hsql⟩ := bind_eq_ok hsql
      cases hsql
      exact .binarySql op left right (hc left List.mem_cons_self l hl)
        (hc right (List.mem_cons_of_mem _ List.mem_cons_self) r hr)
    | call info function args =>
      obtain ⟨printed, hprinted, hsql⟩ := bind_eq_ok hsql
      split at hsql
      · rename_i sql' hcall
        cases hsql
        exact .callSql (printed_allToSql hc hprinted) hcall
      · cases hsql
    | aggregate info ref =>
      dsimp only at hsql
      split at hsql
      · rename_i c hcolumn
        cases hsql
        have hnames := h.aggregate info ref (.refl _) c hcolumn
        exact AggregateColumn.closed_toSql hnames.1 hnames.2
      · cases hsql

theorem printed_toSql (h : e.Speaks v s) {sql : Sql} (hsql : e.toSql s = .ok sql) : Printed v sql :=
  (closed_toSql h hsql).printed

end Expression

/-! ### Queries -/

/-- A table under an alias, where a column of the table or of one before it is equal to another one. -/
theorem Sql.Printed.joined {before table label : String} {p q : Sql}
    (hf : [some before, none, some " ", none, some " ON ", none, some " = ", none] ∈ Sql.frames) (ht : v.table table)
    (hl : v.label label) (hp : Printed v p) (hq : Printed v q) :
    Printed v (before ++ Sql.table table ++ " " ++ Sql.identifier label ++ " ON " ++ p ++ " = " ++ q) := by
  refine .of_fill _ [Sql.table table, Sql.identifier label, p, q] ?_ hf rfl ?_
  · simp only [Sql.fill, Sql.append_assoc, Sql.append_nil]
  · simp [Sql.Printed.table ht, Sql.Printed.label hl, hp, hq]

private theorem Sql.Printed.introduced {before table label : String}
    (hf : [some before, none, some " ", none] ∈ Sql.frames) (ht : v.table table) (hl : v.label label) :
    Printed v (before ++ Sql.table table ++ " " ++ Sql.identifier label) := by
  refine .of_fill _ [Sql.table table, Sql.identifier label] ?_ hf rfl ?_
  · simp only [Sql.fill, Sql.append_assoc, Sql.append_nil]
  · simp [Sql.Printed.table ht, Sql.Printed.label hl]

private theorem SelectItem.printed_toSql {i : SelectItem} (hvalue : Printed v i.value) (hname : v.label i.name) :
    Printed v i.toSql := by
  refine .of_fill [none, some " AS ", none] [i.value, Sql.identifier i.name] ?_ (by decide) rfl ?_
  · simp only [SelectItem.toSql, Sql.fill, Sql.append_assoc, Sql.append_nil]
  · simp [hvalue, Sql.Printed.label hname]

structure LookupJoin.Speaks (v : Vocabulary) (j : LookupJoin) : Prop where
  table : v.table j.table
  label : v.label j.label
  parent : v.label j.parent
  column : v.column j.column

private theorem column_primaryKey (v : Vocabulary) : v.column primaryKey := v.column_of_fixed _ (by decide)

private theorem LookupJoin.printed_toSql {j : LookupJoin} (h : j.Speaks v) : Printed v j.toSql :=
  .joined (by decide) h.table h.label (.column h.parent h.column) (.column h.label (column_primaryKey v))

structure DetailLevel.Speaks (v : Vocabulary) (l : DetailLevel) : Prop where
  table : v.table l.table
  label : v.label l.label
  column : v.column l.column

namespace Subquery

/-- All names of a subquery are in the vocabulary, and its items follow the grammar. -/
structure Speaks (v : Vocabulary) (q : Subquery) : Prop where
  label : v.label q.label
  levels : ∀ l ∈ q.top :: q.deeper, l.Speaks v
  joins : ∀ j ∈ q.joins, j.Speaks v
  items : ∀ i ∈ q.items, Printed v i.value ∧ v.label i.name

private theorem printed_deeperSql {up : String} {ls : List DetailLevel} (hup : v.label up)
    (h : ∀ l ∈ ls, l.Speaks v) : ∀ p ∈ deeperSql up ls, Printed v p := by
  induction ls generalizing up with
  | nil => exact nofun
  | cons l ls ih =>
    have hl := h l List.mem_cons_self
    rw [deeperSql]
    refine List.forall_mem_cons.2 ⟨?_, ih hl.label fun k hk => h k (List.mem_cons_of_mem _ hk)⟩
    exact .joined (by decide) hl.table hl.label (.column hl.label hl.column) (.column hup (column_primaryKey v))

private theorem printed_toSql {q : Subquery} (h : q.Speaks v) : Printed v q.toSql := by
  have htop := h.levels q.top List.mem_cons_self
  have hkey : v.label groupKey := v.label_of_fixed _ (by decide)
  have hkeyColumn : v.column groupKey := v.column_of_fixed _ (by decide)
  have hbase : v.label baseAlias := v.label_of_fixed _ (by decide)
  have hgroup : Printed v q.groupColumn := .column htop.label htop.column
  have hitems : ∀ p ∈ SelectItem.toSql ⟨q.groupColumn, groupKey⟩ :: q.items.map SelectItem.toSql, Printed v p := by
    refine List.forall_mem_cons.2 ⟨SelectItem.printed_toSql hgroup hkey, ?_⟩
    exact List.forall_mem_map.2 fun i hi => SelectItem.printed_toSql (h.items i hi).1 (h.items i hi).2
  have hlines : ∀ p ∈ q.fromLines, Printed v p := by
    unfold fromLines
    rw [List.cons_append]
    refine List.forall_mem_cons.2 ⟨.introduced (by decide) htop.table htop.label, List.forall_mem_append.2 ⟨?_, ?_⟩⟩
    · exact printed_deeperSql htop.label fun l hl => h.levels l (List.mem_cons_of_mem _ hl)
    · refine List.forall_mem_map.2 fun j hj => .of_fill [some "    ", none] [j.toSql] ?_ (by decide) rfl ?_
      · simp only [Sql.fill, Sql.append_nil]
      · simpa using LookupJoin.printed_toSql (h.joins j hj)
  refine .of_fill [some "LEFT JOIN (\n    SELECT ", none, some "\n", none, some "\n    GROUP BY ", none, some "\n) ",
    none, some " ON ", none, some " = ", none] [Sql.join ", " (SelectItem.toSql ⟨q.groupColumn, groupKey⟩ ::
      q.items.map SelectItem.toSql), Sql.join "\n" q.fromLines, q.groupColumn, Sql.identifier q.label,
      Sql.column q.label groupKey, Sql.column baseAlias primaryKey] ?_ (by decide) rfl ?_
  · simp only [toSql, Sql.fill, Sql.append_assoc, Sql.append_nil]
  · have h₁ : Printed v (Sql.join ", " _) := .join (by decide) (List.cons_ne_nil _ _) hitems
    have h₂ : Printed v (Sql.join "\n" q.fromLines) := .join (by decide) (List.cons_ne_nil _ _) hlines
    simp [h₁, h₂, hgroup, Sql.Printed.label h.label, Sql.Printed.column h.label hkeyColumn,
      Sql.Printed.column hbase (column_primaryKey v)]

end Subquery

namespace Query

/-- All names of a query are in the vocabulary, and its fields follow the grammar. -/
structure Speaks (v : Vocabulary) (q : Query) : Prop where
  base : v.table q.base
  joins : ∀ j ∈ q.joins, j.Speaks v
  subqueries : ∀ sub ∈ q.subqueries, sub.Speaks v
  fields : ∀ i ∈ q.fields, Printed v i.value ∧ v.label i.name

/-- What a query prints follows the grammar. -/
theorem printed_toSql {q : Query} (h : q.Speaks v) (hne : q.fields ≠ []) : Printed v q.toSql := by
  have hbase : v.label baseAlias := v.label_of_fixed _ (by decide)
  have hlines : Printed v q.fromSql := by
    refine .join (by decide) (List.cons_ne_nil _ _) ?_
    refine List.forall_mem_cons.2 ⟨.introduced (by decide) h.base hbase, List.forall_mem_append.2 ⟨?_, ?_⟩⟩
    · exact List.forall_mem_map.2 fun j hj => LookupJoin.printed_toSql (h.joins j hj)
    · exact List.forall_mem_map.2 fun sub hs => Subquery.printed_toSql (h.subqueries sub hs)
  have hfields : Printed v (Sql.join ",\n  " (q.fields.map SelectItem.toSql)) := by
    refine .join (by decide) (mt List.map_eq_nil_iff.1 hne) ?_
    exact List.forall_mem_map.2 fun i hi => SelectItem.printed_toSql (h.fields i hi).1 (h.fields i hi).2
  refine .of_fill [some "SELECT\n  ", none, some "\n", none] [Sql.join ",\n  " (q.fields.map SelectItem.toSql),
    q.fromSql]
    ?_ (by decide) rfl (by simp [hlines, hfields])
  simp only [toSql, Sql.fill, Sql.append_assoc, Sql.append_nil]

end Query

end FormulaQuery

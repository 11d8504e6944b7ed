import FormulaQuery.Proofs.Consolidation
import FormulaQuery.Proofs.Lexical

/-!
# The quoted words of a query

What is quoted in the text of a query, written down from its records and from the expressions of its fields: names
and texts in the order in which they are read (`Query.words`). Nothing is left out, nothing is added, and no word is
changed by being printed (`Query.Built.words_toSql`).
-/

namespace FormulaQuery

/-- What a quoted token stands for. -/
inductive Word where
  | name (n : String)
  | text (t : String)
deriving DecidableEq, Repr

/-- What the quoted tokens that are read stand for, one after the other. -/
def Lexical.words (items : List Lexical.Item) : List Word :=
  items.filterMap fun
    | .plain _ => none
    | .quoted quote t => some (if quote = '"' then .name t else .text t)

/-! ### Words of expressions -/

/-- A text aggregate over no rows gives the empty text. -/
def AggregateColumn.words (c : AggregateColumn) : List Word :=
  [.name c.source, .name c.column] ++ if c.function.takesDelimiter then [.text ""] else []

namespace Expression

/-- The words of two operands in turn. A number of days is moved behind the date that it is added to, and has a
unit. -/
def binaryWords (op : BinaryOperator) (left right : ValueType) (l r : List Word) : List Word :=
  if op ∈ [.add, .subtract] ∧ left = .date ∧ right ≠ .date then l ++ r ++ [.text "1 day"]
  else if op = .add ∧ left ≠ .date ∧ right = .date then r ++ l ++ [.text "1 day"]
  else l ++ r

def isMonths : Option Expression → Bool
  | some (.string _ unit) => unit = "months"
  | _ => false

/-- The words of the arguments in turn. In a difference of dates the later date comes first, the unit is no word, and
months take the dates twice: for the years among them and for the rest. -/
def callWords (function : String) (args : List Expression) (ws : List (List Word)) : List Word :=
  if function = "DATEDIF" then
    let dates := ws.getD 1 [] ++ ws.getD 0 []
    if isMonths args[2]? then dates ++ dates else dates
  else ws.flatten

mutual

/-- The quoted words of an expression whose names are read from the given sources. -/
def words (s : Sources) : Expression → List Word
  | number _ _ | boolean _ _ | null _ => []
  | string _ t => [.text t]
  | date _ d => [.text d]
  | column _ n => [.name s.table, .name n]
  | related _ join n => (s.joins.lookup join).elim [] fun label => [.name label, .name n]
  | negate _ e => words s e
  | binary _ op l r => binaryWords op l.type r.type (words s l) (words s r)
  | call _ function args => callWords function args (allWords s args)
  | aggregate _ ref => (s.aggregates.lookup ref).elim [] AggregateColumn.words

def allWords (s : Sources) : List Expression → List (List Word)
  | [] => []
  | e :: es => words s e :: allWords s es

end

end Expression

/-- The words of what an aggregate folds, and of what it puts between texts. -/
def Aggregate.words (s : Sources) (a : Aggregate) : List Word :=
  a.expression.words s ++ if a.function.takesDelimiter then a.delimiter.elim [.text ","] (·.words s) else []

/-! ### Words of records -/

/-- The name of a table is quoted unless it is plain. -/
def tableWords (n : String) : List Word := if Sql.isPlainTableName n then [] else [.name n]

def LookupJoin.words (j : LookupJoin) : List Word :=
  tableWords j.table ++ [.name j.label, .name j.parent, .name j.column, .name j.label, .name primaryKey]

namespace Subquery

/-- The words of the levels below the one with alias `up`. -/
def deeperWords (up : String) : List DetailLevel → List Word
  | [] => []
  | l :: ls =>
    tableWords l.table ++ [.name l.label, .name l.label, .name l.column, .name up, .name primaryKey]
      ++ deeperWords l.label ls

/-- The words of a subquery that computes the given aggregates. -/
def words (q : Subquery) (as : List Aggregate) : List Word :=
  let key : List Word := [.name q.top.label, .name q.top.column]
  let sources := Assembly.itemSources q.top q.deeper as
  key ++ [.name groupKey]
    ++ as.zipIdx.flatMap (fun a => a.1.words sources ++ [.name (Assembly.columnName a.2 a.1)])
    ++ tableWords q.top.table ++ [.name q.top.label] ++ deeperWords q.top.label q.deeper
    ++ q.joins.flatMap LookupJoin.words ++ key
    ++ [.name q.label, .name q.label, .name groupKey, .name baseAlias, .name primaryKey]

end Subquery

/-- The words of the query of a batch: its fields with their names, the base table, joins, and subqueries. -/
def Query.words (q : Query) (b : Batch) : List Word :=
  b.fields.flatMap (fun f => f.2.expression.words (Assembly.fieldSources b.parts) ++ [.name f.1])
    ++ tableWords q.base ++ [.name baseAlias] ++ q.joins.flatMap LookupJoin.words
    ++ ((Assembly.groups b.aggregates).zip q.subqueries).flatMap fun g => g.2.words g.1.aggregates

/-! ### What is read of printed SQL -/

namespace Sql

def words (s : Sql) : List Word := Lexical.words s.items

@[simp] theorem words_append (a b : Sql) : (a ++ b).words = a.words ++ b.words := by
  rw [words, items_append, Lexical.words, List.filterMap_append]
  rfl

@[simp] theorem words_bare (t : String) : (⟨[.bare t]⟩ : Sql).words = [] := by
  rw [words, items_bare, Lexical.words, List.filterMap_map]
  exact List.filterMap_eq_nil_iff.2 fun _ _ => rfl

@[simp] theorem words_literal (t : String) : (literal t).words = [.text t] := rfl

@[simp] theorem words_identifier (n : String) : (identifier n).words = [.name n] := rfl

@[simp] theorem words_column (source n : String) : (column source n).words = [.name source, .name n] := rfl

@[simp] theorem words_table (n : String) : (table n).words = tableWords n := by
  unfold table tableWords
  split
  · exact words_bare n
  · rfl

@[simp] theorem words_join (separator : String) (parts : List Sql) :
    (join separator parts).words = parts.flatMap words := by
  induction parts using join.induct with
  | case1 => rfl
  | case2 p => simp [join]
  | case3 p parts hne ih =>
    rw [join.eq_3 separator p parts hne, words_append, words_append, words_bare, ih, List.append_nil,
      List.flatMap_cons]

/-- Bare text that stands for a part that is missing has no words. -/
theorem words_getD (part : Option Sql) (missing : String) :
    (part.getD ⟨[.bare missing]⟩).words = (part.map words).getD [] := by
  cases part with
  | none => exact words_bare missing
  | some p => rfl

end Sql

/-! ### Expressions -/

private theorem AggregateColumn.words_toSql (c : AggregateColumn) : c.toSql.words = c.words := by
  obtain ⟨source, column, function⟩ := c
  cases function with
  | avg | min | max => rfl
  | _ => simp [toSql, words, AggregateFunction.emptyValue?, AggregateFunction.takesDelimiter]

private theorem AggregateFunction.words_toSql (f : AggregateFunction) (value : Sql) (delimiter : Option Sql) :
    (f.toSql value delimiter).words =
      value.words ++ if f.takesDelimiter then delimiter.elim [.text ","] Sql.words else [] := by
  cases f with
  | stringAgg | stringAggDistinct => cases delimiter <;> simp [toSql, takesDelimiter]
  | _ => simp [toSql, takesDelimiter]

namespace Expression

variable {s : Sources}

private theorem words_of_isNull {e : Expression} (h : e.isNull = true) : e.words s = [] := by
  cases e with
  | null => simp [words]
  | _ => cases h

private theorem words_binarySql (op : BinaryOperator) {left right : Expression} {l r : Sql}
    (hl : l.words = left.words s) (hr : r.words = right.words s) :
    (binarySql op left right l r).words =
      binaryWords op left.type right.type (left.words s) (right.words s) := by
  -- a test for null prints the other operand alone, and null has no words
  have hnull : left.isNull = true ∨ right.isNull = true →
      (if right.isNull then l else r).words = left.words s ++ right.words s := by
    rintro h
    split
    · rename_i hright
      rw [hl, words_of_isNull hright, List.append_nil]
    · rename_i hright
      rw [hr, words_of_isNull (h.resolve_right hright), List.nil_append]
  unfold binarySql days binaryWords
  cases op with
  | add | subtract => split_ifs <;> simp_all
  | equal | notEqual =>
    dsimp only
    split
    · rename_i h
      simp [hnull (by simpa using h)]
    · simp [hl, hr]
  | multiply | divide | concat | less | greater | lessEqual | greaterEqual => simp [hl, hr]

private theorem words_dateDifferenceSql (unit : Option Expression) (start finish : Sql) :
    (dateDifferenceSql unit start finish).words =
      let dates := finish.words ++ start.words
      if isMonths unit then dates ++ dates else dates := by
  unfold dateDifferenceSql
  dsimp only
  split
  · simp [isMonths]
  · simp [isMonths]
  · rename_i hmonths hyears
    have hnot : isMonths unit = false := by
      unfold isMonths
      split
      · rename_i info text
        exact decide_eq_false fun h => hmonths info (by rw [h])
      · rfl
    simp [hnot]

/-- The most arguments of a function that prints its arguments one by one. -/
private def argumentLimit? : String → Option Nat
  | "IF" => some 3
  | "NULLVALUE" | "ROUND" | "CONTAINS" => some 2
  | "NOT" | "ISNULL" | "CEILING" | "LEN" | "STRING" | "YEAR" | "MONTH" | "DAY" => some 1
  | "TODAY" => some 0
  | _ => none

private theorem maxArity?_of_argumentLimit? :
    ∀ sig ∈ Signature.catalog, ∀ m ∈ argumentLimit? sig.name, sig.maxArity? = some m := by
  decide +kernel

private theorem flatMap_words_eq {parts : List Sql} {n : Nat} (h : parts.length ≤ n) :
    parts.flatMap Sql.words = (List.range n).flatMap fun i => (parts[i]?.map Sql.words).getD [] := by
  induction parts generalizing n with
  | nil => simp
  | cons p parts ih =>
    cases n with
    | zero => cases h
    | succ n =>
      rw [List.flatMap_cons, ih (Nat.le_of_succ_le_succ h), List.range_succ_eq_map, List.flatMap_cons,
        List.flatMap_map]
      rfl

private theorem words_callSql {sig : Signature} (hs : sig ∈ Signature.catalog) {args : List Expression}
    {printed : List Sql} (hm : ∀ m ∈ sig.maxArity?, printed.length ≤ m) {sql : Sql}
    (h : callSql? sig.name args printed = some sql) :
    sql.words = callWords sig.name args (printed.map Sql.words) := by
  -- of arguments that are printed one by one, none is left out
  have hall : ∀ n ∈ argumentLimit? sig.name,
      printed.flatMap Sql.words = (List.range n).flatMap fun i => (printed[i]?.map Sql.words).getD [] := fun n hn =>
    flatMap_words_eq (hm n (maxArity?_of_argumentLimit? sig hs n hn))
  clear hm hs
  generalize sig.name = function at h hall
  rcases eq_or_ne function "DATEDIF" with rfl | hne
  · cases h
    rw [words_dateDifferenceSql]
    simp [callWords, Sql.words_getD]
  · rw [callWords, if_neg hne, ← List.flatMap_def]
    unfold callSql? at h
    split at h <;> cases h
    all_goals simp_all [Sql.words_getD, argumentLimit?, List.range_succ]

/-- Every call is of a function that takes so many arguments. -/
private def Fits (e : Expression) : Prop := ∀ info function args, (Expression.call info function args).Within e →
  ∃ sig ∈ Signature.catalog, sig.name = function ∧ ∀ m ∈ sig.maxArity?, args.length ≤ m

private theorem words_allToSql {args : List Expression}
    (h : ∀ e ∈ args, ∀ sql, e.toSql s = .ok sql → sql.words = e.words s) {printed : List Sql}
    (hprinted : allToSql s args = .ok printed) :
    printed.length = args.length ∧ printed.map Sql.words = allWords s args := by
  induction args generalizing printed with
  | nil =>
    cases hprinted
    exact ⟨rfl, by rw [allWords, List.map_nil]⟩
  | cons e args ih =>
    rw [allToSql] at hprinted
    obtain ⟨p, hp, hprinted⟩ := bind_eq_ok hprinted
    obtain ⟨more, hmore, hprinted⟩ := bind_eq_ok hprinted
    cases hprinted
    obtain ⟨hlength, hwords⟩ := ih (fun c hc => h c (List.mem_cons_of_mem _ hc)) hmore
    refine ⟨congrArg Nat.succ hlength, ?_⟩
    rw [List.map_cons, allWords, h e List.mem_cons_self p hp, hwords]

/-- What is read of a printed expression are its words. -/
private theorem words_toSql {e : Expression} (h : e.Fits) {sql : Sql} (hsql : e.toSql s = .ok sql) :
    sql.words = e.words s := by
  induction e using children_induction generalizing sql with
  | step e ih =>
    have hc : ∀ c ∈ e.children, ∀ sql, c.toSql s = .ok sql → sql.words = c.words s := fun c hc sql hsql =>
      ih c hc (fun info function args hw => h info function args (.child hc hw)) hsql
    unfold toSql at hsql
    cases e with
    | number | null =>
      cases hsql
      rw [words, Sql.words_bare]
    | boolean info b =>
      cases hsql
      cases b <;> rw [words] <;> exact Sql.words_bare _
    | string info t =>
      cases hsql
      rw [words, Sql.words_literal]
    | date info t =>
      cases hsql
      rw [words, Sql.words_append, Sql.words_bare, Sql.words_literal, List.nil_append]
    | column info name =>
      cases hsql
      rw [words, Sql.words_column]
    | related info join name =>
      dsimp only at hsql
      split at hsql
      · rename_i label hlabel
        cases hsql
        rw [words, hlabel, Sql.words_column]
        rfl
      · cases hsql
    | negate info operand =>
      obtain ⟨p, hp, hsql⟩ := bind_eq_ok hsql
      cases hsql
      rw [words, ← hc operand List.mem_cons_self p hp]
      simp
    | binary info op left right =>
      obtain ⟨l, hl, hsql⟩ := bind_eq_ok hsql
      obtain ⟨r, hr, hsql⟩ := bind_eq_ok hsql
      cases hsql
      rw [words]
      exact words_binarySql op (hc left List.mem_cons_self l hl)
        (hc right (List.mem_cons_of_mem _ List.mem_cons_self) r hr)
    | call info function args =>
      obtain ⟨printed, hprinted, hsql⟩ := bind_eq_ok hsql
      have hargs : printed.length = args.length ∧ printed.map Sql.words = allWords s args :=
        words_allToSql hc hprinted
      obtain ⟨sig, hs, rfl, hm⟩ := h info function args (.refl _)
      split at hsql
      · rename_i sql' hcall
        cases hsql
        rw [words, words_callSql hs (hargs.1 ▸ hm) hcall, hargs.2]
      · cases hsql
    | aggregate info ref =>
      dsimp only at hsql
      split at hsql
      · rename_i c hcolumn
        cases hsql
        rw [words, hcolumn, AggregateColumn.words_toSql]
        rfl
      · cases hsql

end Expression

theorem Scope.Compiled.words_toSql {s : Scope} {p : Plan} (h : Compiled s p) {sources : Sources} {sql : Sql}
    (hsql : p.expression.toSql sources = .ok sql) : sql.words = p.expression.words sources := by
  refine Expression.words_toSql ?_ hsql
  intro info function args hw
  obtain ⟨sig, hs, -, hname, hm⟩ := h.exists_of_call hw
  exact ⟨sig, hs, hname, hm⟩

/-! ### Queries -/

private theorem SelectItem.words_toSql (i : SelectItem) : i.toSql.words = i.value.words ++ [.name i.name] := by
  simp [toSql]

private theorem LookupJoin.words_toSql (j : LookupJoin) : j.toSql.words = j.words := by
  simp [toSql, words]

namespace Subquery

private theorem words_deeperSql (up : String) (ls : List DetailLevel) :
    (deeperSql up ls).flatMap Sql.words = deeperWords up ls := by
  induction ls generalizing up with
  | nil => rfl
  | cons l ls ih =>
    rw [deeperSql, deeperWords, List.flatMap_cons, ih]
    simp

private theorem words_item {s : Scope} {d : Scope.Destination} {a : Aggregate} (h : s.AggregateAt d a)
    {sources : Sources} {column : String} {item : SelectItem} (hitem : a.IsItem sources column item) :
    item.toSql.words = a.words sources ++ [.name column] := by
  obtain ⟨value, delimiter, hvalue, hdelimiter, rfl⟩ := hitem
  obtain ⟨p, hp, he, -⟩ := h.inner
  have hexpression : value.words = a.expression.words sources := by
    rw [he] at hvalue ⊢
    exact hp.words_toSql hvalue
  have hbetween : delimiter.elim [.text ","] Sql.words =
      a.delimiter.elim [.text ","] (Expression.words sources) := by
    cases hd : a.delimiter with
    | none =>
      rw [hd] at hdelimiter
      cases hdelimiter
      rfl
    | some e =>
      rw [hd] at hdelimiter
      obtain ⟨p, hp, rfl, -⟩ := h.delimiter e hd
      cases hdelimiter with
      | some hsql => exact hp.words_toSql hsql
  rw [SelectItem.words_toSql, AggregateFunction.words_toSql, hexpression, hbetween, Aggregate.words]

private theorem Built.words_items {q : Subquery} {s : Scope} {d : Scope.Destination} {as : List Aggregate}
    (h : q.Built s d as) :
    (as.zipIdx.flatMap fun a => a.1.words (Assembly.itemSources q.top q.deeper as) ++
      [.name (Assembly.columnName a.2 a.1)]) = q.items.flatMap fun i => i.toSql.words := by
  refine flatMap_eq_flatMap_of_forall₂ (forall₂_imp_of_mem h.items ?_)
  intro a ha item _ hitem
  exact (words_item (h.aggregates a.1 (List.fst_mem_of_mem_zipIdx ha)) hitem).symm

private theorem Built.words_toSql {q : Subquery} {s : Scope} {d : Scope.Destination} {as : List Aggregate}
    (h : q.Built s d as) : q.toSql.words = q.words as := by
  have hjoins : q.joins.flatMap (fun j => (("    " : Sql) ++ j.toSql).words) = q.joins.flatMap LookupJoin.words := by
    refine List.flatMap_congr fun j _ => ?_
    rw [Sql.words_append, Sql.words_bare, LookupJoin.words_toSql, List.nil_append]
  have hlines : q.fromLines.flatMap Sql.words = tableWords q.top.table ++ [.name q.top.label] ++
      deeperWords q.top.label q.deeper ++ q.joins.flatMap LookupJoin.words := by
    rw [fromLines, List.cons_append, List.flatMap_cons, List.flatMap_append, words_deeperSql, List.flatMap_map,
      hjoins]
    simp
  unfold toSql words
  simp only [Sql.words_append, Sql.words_bare, Sql.words_join, Sql.words_identifier, Sql.words_column,
    List.flatMap_cons, List.flatMap_map, SelectItem.words_toSql, groupColumn, hlines, h.words_items]
  simp

end Subquery

/-- What is read of the text of a query are the words of its records and of the expressions of its batch. -/
theorem Query.Built.words_toSql {q : Query} {s : Scope} {b : Batch} (h : q.Built s b) :
    q.toSql.words = q.words b := by
  have hfields : (b.fields.flatMap fun f => f.2.expression.words (Assembly.fieldSources b.parts) ++ [.name f.1]) =
      q.fields.flatMap fun i => i.toSql.words := by
    refine flatMap_eq_flatMap_of_forall₂ (forall₂_imp_of_mem h.fields ?_)
    rintro f hf item - ⟨hname, hvalue⟩
    rw [SelectItem.words_toSql, (h.compiled f hf).words_toSql hvalue, hname]
  have hsubs : (((Assembly.groups b.aggregates).zip q.subqueries).flatMap fun g => g.2.words g.1.aggregates) =
      q.subqueries.flatMap fun sub => sub.toSql.words := by
    obtain ⟨hlength, hsubs⟩ := List.forall₂_iff_zip.1 h.subqueries
    have hsnd : ((Assembly.groups b.aggregates).zip q.subqueries).map Prod.snd = q.subqueries :=
      List.map_snd_zip (Nat.le_of_eq hlength.symm)
    conv => rhs; rw [← hsnd, List.flatMap_map]
    refine List.flatMap_congr ?_
    intro g hg
    obtain ⟨-, -, d, hbuilt⟩ := hsubs hg
    exact hbuilt.words_toSql.symm
  unfold toSql fromSql words
  simp only [Sql.words_append, Sql.words_bare, Sql.words_join, Sql.words_identifier, Sql.words_table,
    List.cons_append, List.flatMap_cons, List.flatMap_append, List.flatMap_map, LookupJoin.words_toSql, hfields,
    hsubs]
  simp

end FormulaQuery

import FormulaQuery.Proofs.Grammar
import FormulaQuery.Proofs.Identifier

/-!
# Reading printed SQL

`scan` reads SQL as any reader of it does: single-quoted texts and double-quoted names, in which a quote is doubled,
and characters outside of them. Printed SQL is read as the pieces that it was printed from
(`Sql.Printed.scan_text`), and outside quotes its parentheses match and neither a second statement nor a comment
begins (`Sql.Printed.isClean`).

The proofs follow a reader that keeps the depth of parentheses and what the last character allows to come next. It
is run once over each frame with a gap of depth zero in it; the rest is composition.
-/

namespace FormulaQuery

namespace Lexical

/-- What is read: a character outside quotes, or a token between two quotes with the text that it stands for. -/
inductive Item where
  | plain (c : Char)
  | quoted (quote : Char) (text : String)
deriving DecidableEq, Repr

/-- Where the reader is: outside quotes, in a token of which `text` is read, or behind a quote of such a token,
which ends it unless it is doubled. -/
inductive Place where
  | outside
  | inside (quote : Char) (text : List Char)
  | behind (quote : Char) (text : List Char)

def isQuote (c : Char) : Bool := c == '\x27' || c == '"'

def scanFrom : Place → List Char → Option (List Item)
  | .outside, [] => some []
  | .inside _ _, [] => none
  | .behind quote text, [] => some [.quoted quote (.ofList text)]
  | .outside, c :: cs => if isQuote c then scanFrom (.inside c []) cs else (scanFrom .outside cs).map (.plain c :: ·)
  | .inside quote text, c :: cs =>
    if c = quote then scanFrom (.behind quote text) cs else scanFrom (.inside quote (text ++ [c])) cs
  | .behind quote text, c :: cs =>
    if c = quote then scanFrom (.inside quote (text ++ [c])) cs
    else if isQuote c then (scanFrom (.inside c []) cs).map (.quoted quote (.ofList text) :: ·)
    else (scanFrom .outside cs).map fun items => .quoted quote (.ofList text) :: .plain c :: items

/-- Reads a text to its end, which has to be outside quotes. -/
def scan (s : String) : Option (List Item) := scanFrom .outside s.toList

/-- The depth of parentheses outside quotes behind an item, unless it closes one that was not opened. -/
def nest (depth : Nat) : Item → Option Nat
  | .plain c =>
    if c = '(' then some (depth + 1)
    else if c = ')' then if depth = 0 then none else some (depth - 1)
    else some depth
  | .quoted _ _ => some depth

/-- Outside quotes the parentheses match, and neither a second statement nor a comment begins. -/
structure IsClean (items : List Item) : Prop where
  depth : items.foldlM nest 0 = some 0
  semicolon : .plain ';' ∉ items
  dashes : ¬[.plain '-', .plain '-'] <:+: items
  slashStar : ¬[.plain '/', .plain '*'] <:+: items

def Item.text : Item → List Char
  | plain c => [c]
  | quoted quote text => Sql.enclose quote text

end Lexical

open Lexical

namespace Sql

/-- What is to be read for a piece. -/
def Piece.items : Piece → List Item
  | bare s => s.toList.map .plain
  | identifier name => [.quoted '"' name]
  | column source name => [.quoted '"' source, .plain '.', .quoted '"' name]
  | literal s => [.quoted '\x27' s]

def items (s : Sql) : List Item := s.pieces.flatMap Piece.items

theorem items_append (a b : Sql) : (a ++ b).items = a.items ++ b.items := List.flatMap_append

theorem items_bare (t : String) : (t : Sql).items = t.toList.map .plain := List.flatMap_singleton _ _

private theorem Piece.toList_text (p : Piece) : p.text.toList = p.items.flatMap Item.text := by
  cases p with
  | bare s =>
    show s.toList = (s.toList.map Item.plain).flatMap Item.text
    rw [List.flatMap_map]
    exact (List.flatMap_singleton' _).symm
  | identifier name | literal s => simp [Piece.text, Piece.items, Item.text, quoteIdentifier, quoteLiteral]
  | column source name => simp [Piece.text, Piece.items, Item.text, quoteIdentifier]

private theorem toList_text (s : Sql) : s.text.toList = s.items.flatMap Item.text := by
  unfold text items
  induction s.pieces with
  | nil => rfl
  | cons p ps ih =>
    rw [List.map_cons, String.join_cons, String.toList_append, ih, List.flatMap_cons, List.flatMap_append,
      p.toList_text]

end Sql

namespace Lexical

/-! ### A reader that keeps track -/

/-- What the last character means for the next one: after a dash no dash may follow, after a slash no star, and a
quoted token only where it does not touch one before it. -/
inductive Last where
  | dash
  | slash
  | gap
  | solid
deriving DecidableEq, Repr

def Last.ofChar (c : Char) : Last :=
  if c = '-' then .dash else if c = '/' then .slash else if c ∈ [' ', '\n', '(', '.'] then .gap else .solid

structure Mark where
  depth : Nat
  last : Last
deriving DecidableEq, Repr

def Last.allows (last : Last) : Item → Bool
  | .plain c => c != ';' && !isQuote c && !(c == '-' && last == .dash) && !(c == '*' && last == .slash)
  | .quoted quote _ => isQuote quote && last != .solid

def Last.ofItem : Item → Last
  | .plain c => .ofChar c
  | .quoted _ _ => .solid

def step (m : Mark) (x : Item) : Option Mark :=
  if m.last.allows x then (nest m.depth x).map (⟨·, .ofItem x⟩) else none

def run (m : Mark) (items : List Item) : Option Mark := items.foldlM step m

variable {m m' : Mark} {x : Item} {items : List Item}

private theorem run_append (m : Mark) (xs ys : List Item) : run m (xs ++ ys) = (run m xs).bind fun m' => run m' ys :=
  List.foldlM_append

private theorem step_eq_some (h : step m x = some m') :
    m.last.allows x = true ∧ nest m.depth x = some m'.depth ∧ m'.last = .ofItem x := by
  unfold step at h
  split at h
  · rename_i hallows
    obtain ⟨depth, hdepth, rfl⟩ := Option.map_eq_some_iff.1 h
    exact ⟨hallows, hdepth, rfl⟩
  · cases h

private theorem run_cons (h : run m (x :: items) = some m') :
    m.last.allows x = true ∧ ∃ depth, nest m.depth x = some depth ∧ run ⟨depth, .ofItem x⟩ items = some m' := by
  rw [run, List.foldlM_cons] at h
  obtain ⟨m₁, hstep, hrun⟩ := Option.bind_eq_some_iff.1 h
  obtain ⟨hallows, hdepth, hlast⟩ := step_eq_some hstep
  exact ⟨hallows, m₁.depth, hdepth, hlast ▸ hrun⟩

private theorem nest_add {depth depth' : Nat} (h : nest depth x = some depth') (k : Nat) :
    nest (depth + k) x = some (depth' + k) := by
  cases x with
  | plain c =>
    unfold nest at h ⊢
    grind
  | quoted quote text =>
    cases h
    rfl

/-- The reader goes on at any depth as it does at a lower one. -/
theorem run_add (h : run m items = some m') (k : Nat) :
    run ⟨m.depth + k, m.last⟩ items = some ⟨m'.depth + k, m'.last⟩ := by
  induction items generalizing m with
  | nil =>
    cases h
    rfl
  | cons x items ih =>
    obtain ⟨hallows, depth, hdepth, hrun⟩ := run_cons h
    rw [run, List.foldlM_cons, step, if_pos hallows, nest_add hdepth]
    exact ih hrun

/-! ### What the reader finds -/

private theorem scanFrom_inside (quote : Char) (text cs rest : List Char) :
    scanFrom (.inside quote text) (cs.flatMap (fun c => if c = quote then [quote, quote] else [c]) ++ quote :: rest) =
      scanFrom (.behind quote (text ++ cs)) rest := by
  induction cs generalizing text with
  | nil => simp [scanFrom]
  | cons c cs ih =>
    rw [List.flatMap_cons, List.append_assoc]
    by_cases hc : c = quote
    · subst hc
      simp only [if_true, List.cons_append, List.nil_append, scanFrom]
      rw [ih, List.append_assoc]
      rfl
    · simp only [if_neg hc, List.cons_append, List.nil_append, scanFrom]
      rw [ih, List.append_assoc]
      rfl

/-- A token ends where no quote follows it. -/
theorem scanFrom_behind {quote : Char} (hquote : isQuote quote = true) (text : List Char) {rest : List Char}
    (h : ∀ c ∈ rest.head?, isQuote c = false) :
    scanFrom (.behind quote text) rest = (scanFrom .outside rest).map (.quoted quote (.ofList text) :: ·) := by
  cases rest with
  | nil => rfl
  | cons c rest =>
    have hc := h c rfl
    have hne : c ≠ quote := by
      rintro rfl
      rw [hquote] at hc
      cases hc
    rw [scanFrom, scanFrom, if_neg hne, if_neg (by rw [hc]; decide), if_neg (by rw [hc]; decide), Option.map_map]
    rfl

private theorem isQuote_head {depth : Nat} (h : run ⟨depth, .solid⟩ items = some m') :
    ∀ c ∈ (items.flatMap Item.text).head?, isQuote c = false := by
  cases items with
  | nil => exact nofun
  | cons x items =>
    obtain ⟨hallows, -⟩ := run_cons h
    cases x with
    | plain c =>
      rintro d ⟨⟩
      simp only [Last.allows, Bool.and_eq_true, Bool.not_eq_true'] at hallows
      exact hallows.1.1.2
    | quoted quote text => simp [Last.allows] at hallows

/-- Items that the reader accepts are found in their text. -/
theorem scan_of_run (h : run m items = some m') : scanFrom .outside (items.flatMap Item.text) = some items := by
  induction items generalizing m with
  | nil => rfl
  | cons x items ih =>
    obtain ⟨hallows, depth, -, hrun⟩ := run_cons h
    cases x with
    | plain c =>
      have hc : isQuote c = false := by
        simp only [Last.allows, Bool.and_eq_true, Bool.not_eq_true'] at hallows
        exact hallows.1.1.2
      show scanFrom .outside (c :: items.flatMap Item.text) = _
      rw [scanFrom, if_neg (by rw [hc]; decide), ih hrun]
      rfl
    | quoted quote text =>
      have hquote : isQuote quote = true := by
        simp only [Last.allows, Bool.and_eq_true] at hallows
        exact hallows.1
      rw [List.flatMap_cons, Item.text, Sql.enclose, List.cons_append, List.append_assoc, scanFrom, if_pos hquote]
      show scanFrom _ (_ ++ quote :: items.flatMap Item.text) = _
      rw [scanFrom_inside, scanFrom_behind hquote _ (isQuote_head hrun), ih hrun, List.nil_append,
        String.ofList_toList]
      rfl

private theorem nest_of_run (h : run m items = some m') : items.foldlM nest m.depth = some m'.depth := by
  induction items generalizing m with
  | nil =>
    cases h
    rfl
  | cons x items ih =>
    obtain ⟨-, depth, hdepth, hrun⟩ := run_cons h
    rw [List.foldlM_cons, hdepth]
    exact ih hrun

/-- Of two items in a row the second is allowed after the first. -/
private theorem allows_of_adjacent {y : Item} (h : run m items = some m') (hxy : [x, y] <:+: items) :
    (Last.ofItem x).allows y = true := by
  obtain ⟨before, after, rfl⟩ := hxy
  rw [List.append_assoc, run_append] at h
  obtain ⟨m₁, -, h⟩ := Option.bind_eq_some_iff.1 h
  obtain ⟨-, depth, -, h⟩ := run_cons h
  exact (run_cons h).1

private theorem exists_allows_of_mem (h : run m items = some m') (hx : x ∈ items) :
    ∃ last : Last, last.allows x = true := by
  obtain ⟨before, after, rfl⟩ := List.append_of_mem hx
  rw [run_append] at h
  obtain ⟨m₁, -, h⟩ := Option.bind_eq_some_iff.1 h
  exact ⟨m₁.last, (run_cons h).1⟩

private theorem isClean_of_run {last last' : Last} (h : run ⟨0, last⟩ items = some ⟨0, last'⟩) : IsClean items := by
  refine ⟨nest_of_run h, ?_, ?_, ?_⟩
  · intro hmem
    obtain ⟨last, hallows⟩ := exists_allows_of_mem h hmem
    cases hallows
  · intro hdash
    exact absurd (allows_of_adjacent h hdash) (by decide)
  · intro hslash
    exact absurd (allows_of_adjacent h hslash) (by decide)

/-! ### Words and frames -/

private theorem step_wordPart {c : Char} (hc : Ascii.isWordPart c = true) (m : Mark) :
    step m (.plain c) = some ⟨m.depth, .solid⟩ := by
  have hne : ∀ d, Ascii.isWordPart d = false → c ≠ d := fun d hd => ne_of_isWordPart hc hd
  have hallows : m.last.allows (.plain c) = true := by
    simp [Last.allows, isQuote, hne ';' (by decide), hne '\x27' (by decide), hne '"' (by decide), hne '-' (by decide),
      hne '*' (by decide)]
  have hlast : Last.ofChar c = .solid := by
    simp [Last.ofChar, hne '-' (by decide), hne '/' (by decide), hne ' ' (by decide), hne '\n' (by decide),
      hne '(' (by decide), hne '.' (by decide)]
  rw [step, if_pos hallows, nest, if_neg (hne '(' (by decide)), if_neg (hne ')' (by decide))]
  exact congrArg (fun last => some (Mark.mk m.depth last)) hlast

private theorem run_word {cs : List Char} (hne : cs ≠ []) (hc : ∀ c ∈ cs, Ascii.isWordPart c = true) (m : Mark) :
    run m (cs.map .plain) = some ⟨m.depth, .solid⟩ := by
  induction cs generalizing m with
  | nil => exact absurd rfl hne
  | cons c cs ih =>
    rw [List.map_cons, run, List.foldlM_cons, step_wordPart (hc c List.mem_cons_self)]
    cases cs with
    | nil => rfl
    | cons d cs => exact ih (List.cons_ne_nil _ _) (fun e he => hc e (List.mem_cons_of_mem _ he)) _

/-- Two words with a point between them. -/
private theorem run_pointed {xs ys : List Char} (hx : xs ≠ []) (hxs : ∀ c ∈ xs, Ascii.isWordPart c = true)
    (hy : ys ≠ []) (hys : ∀ c ∈ ys, Ascii.isWordPart c = true) (m : Mark) :
    run m ((xs ++ '.' :: ys).map .plain) = some ⟨m.depth, .solid⟩ := by
  rw [List.map_append, run_append, run_word hx hxs]
  exact run_word hy hys ⟨m.depth, .gap⟩

/-- SQL that can stand in a gap: parentheses match in it, and it can be read wherever a token may start. -/
def IsOperand (s : Sql) : Prop := ∀ m : Mark, m.last ≠ .solid → run m s.items = some ⟨m.depth, .solid⟩

/-- Reads a frame, where every gap is read as an operand. -/
def runFrame : Mark → List (Option String) → Option Mark
  | m, [] => some m
  | m, some t :: frame => (run m (t.toList.map .plain)).bind fun m' => runFrame m' frame
  | m, none :: frame => if m.last = .solid then none else runFrame ⟨m.depth, .solid⟩ frame

private theorem runFrame_add {frame : List (Option String)} (h : runFrame m frame = some m') (k : Nat) :
    runFrame ⟨m.depth + k, m.last⟩ frame = some ⟨m'.depth + k, m'.last⟩ := by
  induction frame generalizing m with
  | nil =>
    cases h
    rfl
  | cons gap frame ih =>
    cases gap with
    | some t =>
      obtain ⟨m₁, ht, h⟩ := Option.bind_eq_some_iff.1 h
      rw [runFrame, run_add ht]
      exact ih h
    | none =>
      rw [runFrame] at h ⊢
      split at h
      · cases h
      · rename_i hlast
        rw [if_neg hlast]
        exact ih h

private theorem run_fill {frame : List (Option String)} {parts : List Sql} (h : runFrame m frame = some m')
    (hlength : frame.count none = parts.length) (hp : ∀ p ∈ parts, IsOperand p) :
    run m (Sql.fill frame parts).items = some m' := by
  induction frame generalizing m parts with
  | nil => exact h
  | cons gap frame ih =>
    cases gap with
    | some t =>
      obtain ⟨m₁, ht, h⟩ := Option.bind_eq_some_iff.1 h
      rw [Sql.fill, Sql.items_append, run_append, Sql.items_bare, ht]
      exact ih h (by simpa using hlength) hp
    | none =>
      cases parts with
      | nil => simp at hlength
      | cons p parts =>
        rw [runFrame] at h
        split at h
        · cases h
        · rename_i hlast
          rw [Sql.fill, Sql.items_append, run_append, hp p List.mem_cons_self m hlast]
          exact ih h (by simpa using hlength) fun q hq => hp q (List.mem_cons_of_mem _ hq)

private theorem runFrame_of_mem : ∀ frame ∈ Sql.frames, ∀ last ∈ [Last.dash, .slash, .gap],
    runFrame ⟨0, last⟩ frame = some ⟨0, .solid⟩ := by
  decide +kernel

private theorem run_separator : ∀ separator ∈ Sql.separators,
    run ⟨0, .solid⟩ (separator.toList.map .plain) = some ⟨0, .gap⟩ := by
  decide +kernel

private theorem isOperand_fill {frame : List (Option String)} {parts : List Sql} (hf : frame ∈ Sql.frames)
    (hlength : frame.count none = parts.length) (hp : ∀ p ∈ parts, IsOperand p) :
    IsOperand (Sql.fill frame parts) := by
  intro m hlast
  -- the frame has been read at depth zero; at any other depth it is read in the same way
  have hmem : m.last ∈ [Last.dash, .slash, .gap] := by
    cases h : m.last with
    | solid => exact absurd h hlast
    | _ => decide
  have hframe := runFrame_add (runFrame_of_mem frame hf m.last hmem) m.depth
  simp only [Nat.zero_add] at hframe
  exact run_fill hframe hlength hp

private theorem isOperand_join {separator : String} {parts : List Sql} (hs : separator ∈ Sql.separators)
    (hne : parts ≠ []) (hp : ∀ p ∈ parts, IsOperand p) : IsOperand (Sql.join separator parts) := by
  induction parts with
  | nil => exact absurd rfl hne
  | cons p parts ih =>
    cases parts with
    | nil => exact hp p List.mem_cons_self
    | cons q parts =>
      intro m hlast
      have hrest := ih (List.cons_ne_nil _ _) fun r hr => hp r (List.mem_cons_of_mem _ hr)
      have hseparator := run_add (run_separator separator hs) m.depth
      simp only [Nat.zero_add] at hseparator
      -- a separator leaves a gap behind it, where the next part may start
      show run m (p ++ (separator : Sql) ++ Sql.join separator (q :: parts)).items = _
      rw [Sql.append_assoc, Sql.items_append, run_append, hp p List.mem_cons_self m hlast]
      show run ⟨m.depth, .solid⟩ ((separator : Sql) ++ Sql.join separator (q :: parts)).items = _
      rw [Sql.items_append, run_append, Sql.items_bare, hseparator]
      exact hrest ⟨m.depth, .gap⟩ nofun

private theorem isOperand_number {t : String} (h : IsNumberText t.toList) : IsOperand t := by
  intro m _
  rw [Sql.items_bare]
  rcases h with h | ⟨whole, fraction, hdigits, h⟩
  · rw [h]
    exact run_word (by decide) (show Ascii.IsName "inf" by decide) m
  · rw [h]
    have hwhole : ∀ c ∈ whole, Ascii.isWordPart c = true := fun c hc =>
      Ascii.isWordPart_of_isDigit (hdigits.whole_isDigit c hc)
    cases fraction with
    | nil =>
      rw [pointed, List.append_nil]
      exact run_word hdigits.whole_ne_nil hwhole m
    | cons d fraction =>
      exact run_pointed hdigits.whole_ne_nil hwhole (List.cons_ne_nil _ _)
        (fun c hc => Ascii.isWordPart_of_isDigit (hdigits.fraction_isDigit c hc)) m

private theorem isOperand_table {t : String} (h : Sql.isPlainTableName t = true) : IsOperand t := by
  intro m _
  rw [Sql.items_bare]
  unfold Sql.isPlainTableName at h
  obtain ⟨hfirst, hrest⟩ := Bool.and_eq_true_iff.1 h
  have hsplit := List.takeWhile_append_dropWhile (p := (· != '.')) (l := t.toList)
  rw [← hsplit]
  cases hdrop : t.toList.dropWhile (· != '.') with
  | nil =>
    rw [List.append_nil]
    exact run_word (Ascii.ne_nil_of_isWord hfirst) (Ascii.isWordPart_of_isWord hfirst) m
  | cons c rest =>
    rw [hdrop] at hrest
    have hpoint : c = '.' := by
      have := List.head?_dropWhile_not (· != '.') t.toList
      rw [hdrop] at this
      simpa using this
    rw [hpoint]
    exact run_pointed (Ascii.ne_nil_of_isWord hfirst) (Ascii.isWordPart_of_isWord hfirst)
      (Ascii.ne_nil_of_isWord hrest)
      (Ascii.isWordPart_of_isWord hrest) m

end Lexical

namespace Sql.Printed

variable {v : Vocabulary} {s : Sql}

/-- Printed SQL can stand in a gap. -/
theorem isOperand (h : Printed v s) : IsOperand s := by
  have hquoted : ∀ (m : Mark) (quote : Char) (t : String), isQuote quote = true → m.last ≠ .solid →
      run m [.quoted quote t] = some ⟨m.depth, .solid⟩ := by
    intro m quote t hquote hlast
    have hallows : m.last.allows (.quoted quote t) = true := by simp [Last.allows, hquote, hlast]
    rw [run, List.foldlM_cons, step, if_pos hallows]
    rfl
  induction h with
  | fill hf hlength _ ih => exact isOperand_fill hf hlength ih
  | join hs hne _ ih => exact isOperand_join hs hne ih
  | number h => exact isOperand_number h
  | @table n =>
    unfold Sql.table
    split
    · rename_i hplain
      exact isOperand_table hplain
    · exact fun m hlast => hquoted m '"' n (by decide) hlast
  | @label n => exact fun m hlast => hquoted m '"' n (by decide) hlast
  | @literal t => exact fun m hlast => hquoted m '\x27' t (by decide) hlast
  | @column source n =>
    intro m hlast
    show run m ([.quoted '"' source] ++ .plain '.' :: [.quoted '"' n]) = _
    rw [run_append, hquoted m '"' source (by decide) hlast]
    exact hquoted ⟨m.depth, .gap⟩ '"' n (by decide) nofun

/-- Printed SQL is read as what it was printed from: every quoted token stands for the text of its piece. -/
theorem scan_text (h : Printed v s) : scan s.text = some s.items := by
  rw [scan, toList_text]
  exact scan_of_run (h.isOperand ⟨0, .gap⟩ nofun)

theorem isClean (h : Printed v s) : IsClean s.items := isClean_of_run (h.isOperand ⟨0, .gap⟩ nofun)

end Sql.Printed

end FormulaQuery

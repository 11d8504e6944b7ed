import FormulaQuery.Proofs.Injection
import FormulaQuery.Proofs.LetterCase

/-!
# Printed expressions as operands

Wherever the SQL of an expression is put, it stays together: its parentheses and `CASE … END` match, and commas and
operators stand inside of them only (`Lexical.IsSelfContained`). So nothing around it can take a part of it as an
operand or argument.

The argument follows the grammar of printed SQL. Whatever is printed can stand inside parentheses
(`Sql.Printed.fits`), and a closed frame can stand anywhere, whatever is printed in its gaps (`Sql.Closed.fits`).
-/

namespace FormulaQuery

namespace Lexical

/-! ### Words and signs -/

/-- What is read once the characters of a word are put together: a word, a sign, or a token in quotes. -/
inductive Atom where
  | word (text : List Char)
  | sign (c : Char)
  | quoted
deriving DecidableEq, Repr

/-- Puts an item before others; a character of a word becomes part of the word that begins there. -/
def Item.onto : Item → List Atom → List Atom
  | .plain c, as =>
    if Ascii.isWordPart c then
      match as with
      | .word w :: as => .word (c :: w) :: as
      | as => .word [c] :: as
    else .sign c :: as
  | .quoted _ _, as => .quoted :: as

def atoms (items : List Item) : List Atom := items.foldr Item.onto []

/-- Reads a text as words, signs and quoted tokens. -/
def read (s : String) : Option (List Atom) := (scan s).map atoms

namespace Atom

def opens : Atom → Bool
  | word w => w.map Char.toUpper == "CASE".toList
  | sign c => c == '('
  | quoted => false

def closes : Atom → Bool
  | word w => w.map Char.toUpper == "END".toList
  | sign c => c == ')'
  | quoted => false

/-- Commas, and the signs and words of operators. -/
def separates : Atom → Bool
  | word w => ["AND", "OR", "NOT", "IS"].any fun name => w.map Char.toUpper == name.toList
  | sign c => [',', '+', '-', '*', '/', '|', '=', '<', '>'].contains c
  | quoted => false

/-- The depth behind an atom, unless it closes what was not opened. -/
def nest (depth : Nat) (a : Atom) : Option Nat :=
  if a.opens then some (depth + 1) else if a.closes then if depth = 0 then none else some (depth - 1) else some depth

end Atom

/-- All that is opened is closed at the end, and separators stand inside only. -/
structure IsSelfContained (as : List Atom) : Prop where
  depth : as.foldlM Atom.nest 0 = some 0
  deeper : ∀ before a after, as = before ++ a :: after → a.separates = true →
    ∃ d, before.foldlM Atom.nest 0 = some d ∧ 0 < d

/-! ### A reader that refuses separators outside -/

namespace Atom

variable {d d' : Nat} {a : Atom} {as : List Atom}

/-- Goes on behind an atom, unless it is a separator outside of all parentheses. -/
def pass (depth : Nat) (a : Atom) : Option Nat := if depth = 0 ∧ a.separates = true then none else nest depth a

private theorem pass_eq_some_iff : pass d a = some d' ↔ nest d a = some d' ∧ (a.separates = true → 0 < d) := by
  unfold pass
  split_ifs with h
  · simp [h]
  · refine ⟨fun hnest => ⟨hnest, fun ha => ?_⟩, And.left⟩
    by_contra hd
    exact h ⟨by omega, ha⟩

private theorem nest_add (k : Nat) (h : nest d a = some d') : nest (d + k) a = some (d' + k) := by
  unfold nest at h ⊢
  split_ifs at h ⊢
  all_goals simp only [Option.some.injEq] at h ⊢
  all_goals omega

private theorem pass_add (k : Nat) (h : pass d a = some d') : pass (d + k) a = some (d' + k) := by
  obtain ⟨hnest, hd⟩ := pass_eq_some_iff.1 h
  refine pass_eq_some_iff.2 ⟨nest_add k hnest, fun ha => ?_⟩
  have := hd ha
  omega

/-- What is read at one depth is read in the same way at a greater one. -/
private theorem foldlM_add {step : Nat → Atom → Option Nat} {k : Nat}
    (hstep : ∀ {d d' : Nat} {a : Atom}, step d a = some d' → step (d + k) a = some (d' + k))
    (h : as.foldlM step d = some d') : as.foldlM step (d + k) = some (d' + k) := by
  induction as generalizing d with
  | nil =>
    cases h
    rfl
  | cons a as ih =>
    rw [List.foldlM_cons] at h ⊢
    obtain ⟨e, ha, h⟩ := Option.bind_eq_some_iff.1 h
    rw [hstep ha]
    exact ih h

private theorem foldlM_nest_add (h : as.foldlM nest d = some d') (k : Nat) : as.foldlM nest (d + k) = some (d' + k) :=
  foldlM_add (nest_add k) h

private theorem foldlM_pass_add (h : as.foldlM pass d = some d') (k : Nat) : as.foldlM pass (d + k) = some (d' + k) :=
  foldlM_add (pass_add k) h

private theorem foldlM_nest_of_pass (h : as.foldlM pass d = some d') : as.foldlM nest d = some d' := by
  induction as generalizing d with
  | nil => exact h
  | cons a as ih =>
    rw [List.foldlM_cons] at h ⊢
    obtain ⟨e, ha, h⟩ := Option.bind_eq_some_iff.1 h
    rw [(pass_eq_some_iff.1 ha).1]
    exact ih h

end Atom

variable {as bs : List Atom} {k d : Nat}

/-- The reader comes through at the given depth and at every greater one. -/
def Fits (k : Nat) (as : List Atom) : Prop := ∀ d, k ≤ d → as.foldlM Atom.pass d = some d

private theorem fits_of_pass (h : as.foldlM Atom.pass k = some k) : Fits k as := by
  intro d hd
  have hadd := Atom.foldlM_pass_add h (d - k)
  rwa [Nat.add_sub_cancel' hd] at hadd

private theorem Fits.mono {k' : Nat} (h : Fits k as) (hk : k ≤ k') : Fits k' as := fun d hd =>
    h d (Nat.le_trans hk hd)

private theorem Fits.append (ha : Fits k as) (hb : Fits k bs) : Fits k (as ++ bs) := by
  intro d hd
  rw [List.foldlM_append, ha d hd]
  exact hb d hd

/-- What can be read anywhere is self-contained. -/
theorem Fits.isSelfContained (h : Fits 0 as) : IsSelfContained as := by
  have hpass := h 0 (Nat.le_refl 0)
  refine ⟨Atom.foldlM_nest_of_pass hpass, ?_⟩
  rintro before a after rfl ha
  rw [List.foldlM_append] at hpass
  obtain ⟨d, hbefore, hpass⟩ := Option.bind_eq_some_iff.1 hpass
  rw [List.foldlM_cons] at hpass
  obtain ⟨e, hstep, -⟩ := Option.bind_eq_some_iff.1 hpass
  exact ⟨d, Atom.foldlM_nest_of_pass hbefore, (Atom.pass_eq_some_iff.1 hstep).2 ha⟩

/-- Behind other atoms the depth is kept, and separators stand deeper. -/
theorem IsSelfContained.behind (h : IsSelfContained as) {xs : List Atom} (hxs : xs.foldlM Atom.nest 0 = some d) :
    (xs ++ as).foldlM Atom.nest 0 = some d ∧ ∀ before a after, as = before ++ a :: after → a.separates = true →
      ∃ d', (xs ++ before).foldlM Atom.nest 0 = some d' ∧ d < d' := by
  have hmove : ∀ {bs : List Atom} {e : Nat}, bs.foldlM Atom.nest 0 = some e →
      (xs ++ bs).foldlM Atom.nest 0 = some (e + d) := by
    intro bs e hbs
    have hadd := Atom.foldlM_nest_add hbs d
    rw [Nat.zero_add] at hadd
    rw [List.foldlM_append, hxs]
    exact hadd
  refine ⟨by rw [hmove h.depth, Nat.zero_add], ?_⟩
  intro before a after heq ha
  obtain ⟨e, hbefore, he⟩ := h.deeper before a after heq ha
  exact ⟨e + d, hmove hbefore, by omega⟩

/-! ### Texts side by side -/

def Item.isWordPart : Item → Bool
  | plain c => Ascii.isWordPart c
  | quoted _ _ => false

/-- No word goes on from the first items into the second ones. -/
def Apart (xs ys : List Item) : Prop :=
  ∀ x ∈ xs.getLast?, ∀ y ∈ ys.head?, x.isWordPart = true → y.isWordPart = false

private theorem onto_ne_nil (x : Item) (as : List Atom) : x.onto as ≠ [] := by
  unfold Item.onto
  split
  · split
    · split <;> exact List.cons_ne_nil _ _
    · exact List.cons_ne_nil _ _
  · exact List.cons_ne_nil _ _

/-- A word begins where no other one does. -/
private theorem onto_of_isWordPart {c : Char} (hc : Ascii.isWordPart c = true) (h : ∀ w more, as ≠ .word w :: more) :
    (Item.plain c).onto as = .word [c] :: as := by
  unfold Item.onto
  dsimp only
  rw [if_pos hc]
  split
  · rename_i w more
    exact absurd rfl (h w more)
  · rfl

private theorem onto_append (x : Item) (ha : as ≠ [] ∨ x.isWordPart = false ∨ ∀ w more, bs ≠ .word w :: more) :
    x.onto (as ++ bs) = x.onto as ++ bs := by
  cases x with
  | quoted quote text => rfl
  | plain c =>
    by_cases hc : Ascii.isWordPart c = true
    · cases as with
      | nil =>
        have hbs : ∀ w more, bs ≠ .word w :: more := by simpa [Item.isWordPart, hc] using ha
        have hnil : ∀ w more, ([] : List Atom) ≠ .word w :: more := by simp
        rw [List.nil_append, onto_of_isWordPart hc hbs, onto_of_isWordPart hc hnil]
        rfl
      | cons a as => cases a <;> simp [Item.onto, hc]
    · simp [Item.onto, hc]

private theorem atoms_ne_word {ys : List Item} (h : ∀ y ∈ ys.head?, y.isWordPart = false) (w : List Char)
    (more : List Atom) : atoms ys ≠ .word w :: more := by
  cases ys with
  | nil => simp [atoms]
  | cons y ys =>
    have hy := h y rfl
    cases y with
    | quoted quote text => simp [atoms, Item.onto]
    | plain c =>
      have hc : Ascii.isWordPart c = false := hy
      simp [atoms, Item.onto, hc]

private theorem atoms_append {xs ys : List Item} (h : Apart xs ys) : atoms (xs ++ ys) = atoms xs ++ atoms ys := by
  induction xs with
  | nil => rfl
  | cons x xs ih =>
    show x.onto (atoms (xs ++ ys)) = x.onto (atoms xs) ++ atoms ys
    cases xs with
    | nil =>
      have hword : x.isWordPart = false ∨ ∀ w more, atoms ys ≠ .word w :: more := by
        cases hx : x.isWordPart with
        | false => exact Or.inl rfl
        | true => exact Or.inr (atoms_ne_word fun y hy => h x rfl y hy hx)
      show x.onto ([] ++ atoms ys) = x.onto [] ++ atoms ys
      exact onto_append x (Or.inr hword)
    | cons x' xs =>
      rw [ih fun y hy => h y (by rwa [List.getLast?_cons_cons])]
      exact onto_append x (Or.inl (onto_ne_nil x' (atoms xs)))

/-- What has been read of a quoted token. -/
private def Place.text : Place → List Char
  | outside => []
  | inside quote text => quote :: text.flatMap fun c => if c = quote then [quote, quote] else [c]
  | behind quote text => Sql.enclose quote (.ofList text)

/-- A text is made up of what is read in it. -/
private theorem text_of_scanFrom {place : Place} {cs : List Char} {items : List Item}
    (h : scanFrom place cs = some items) : place.text ++ cs = items.flatMap Item.text := by
  fun_induction scanFrom place cs generalizing items with
  | case1 =>
    cases h
    rfl
  | case2 quote text => cases h
  | case3 quote text =>
    cases h
    simp [Place.text, Item.text]
  | case4 c cs hc ih => simpa [Place.text] using ih h
  | case5 c cs hc ih =>
    obtain ⟨more, hmore, rfl⟩ := Option.map_eq_some_iff.1 h
    simpa [Place.text, Item.text] using ih hmore
  | case6 quote text cs ih => simpa [Place.text, Sql.enclose] using ih h
  | case7 quote text c cs hc ih => simpa [Place.text, hc] using ih h
  | case8 quote text cs ih => simpa [Place.text, Sql.enclose] using ih h
  | case9 quote text c cs hc hquote ih =>
    obtain ⟨more, hmore, rfl⟩ := Option.map_eq_some_iff.1 h
    simpa [Place.text, Item.text] using ih hmore
  | case10 quote text c cs hc hquote ih =>
    obtain ⟨more, hmore, rfl⟩ := Option.map_eq_some_iff.1 h
    simpa [Place.text, Item.text] using ih hmore

/-- Quoted tokens are read up to the quotes that began them. -/
private def Place.IsSound : Place → Prop
  | outside => True
  | inside quote _ | behind quote _ => isQuote quote = true

/-- No quote follows another one where texts meet: none begins the second text, or none ends the first one. -/
private def Meets (place : Place) (cs ds : List Char) : Prop :=
  (∀ d ∈ ds.head?, isQuote d = false) ∨ (cs = [] → place = .outside) ∧ ∀ c ∈ cs.getLast?, isQuote c = false

private theorem Meets.tail {place place' : Place} {c : Char} {cs ds : List Char} (h : Meets place (c :: cs) ds)
    (hplace : cs = [] → isQuote c = false → place' = .outside) : Meets place' cs ds := by
  refine h.imp_right ?_
  rintro ⟨-, hlast⟩
  rw [List.getLast?_cons] at hlast
  refine ⟨?_, ?_⟩
  · rintro rfl
    exact hplace rfl (hlast c rfl)
  · intro e he
    refine hlast e ?_
    rw [Option.mem_def] at he
    rw [he]
    rfl

private theorem scanFrom_append {place : Place} {cs ds : List Char} {xs ys : List Item} (hplace : place.IsSound)
    (hmeets : Meets place cs ds) (hxs : scanFrom place cs = some xs) (hys : scanFrom .outside ds = some ys) :
    scanFrom place (cs ++ ds) = some (xs ++ ys) := by
  have hfalse : ∀ {c : Char} {place' : Place}, isQuote c = true → isQuote c = false → place' = .outside := by
    intro c place' htrue hnot
    rw [htrue] at hnot
    cases hnot
  fun_induction scanFrom place cs generalizing xs with
  | case1 =>
    cases hxs
    exact hys
  | case2 quote text => cases hxs
  | case3 quote text =>
    cases hxs
    rcases hmeets with hhead | ⟨houtside, -⟩
    · rw [List.nil_append, scanFrom_behind hplace text hhead, hys]
      rfl
    · cases houtside rfl
  | case4 c cs hc ih =>
    rw [List.cons_append, scanFrom, if_pos hc]
    exact ih hc (hmeets.tail fun _ => hfalse hc) hxs
  | case5 c cs hc ih =>
    obtain ⟨more, hmore, rfl⟩ := Option.map_eq_some_iff.1 hxs
    rw [List.cons_append, scanFrom, if_neg hc, ih True.intro (hmeets.tail fun _ _ => rfl) hmore]
    rfl
  | case6 quote text cs ih =>
    rw [List.cons_append, scanFrom, if_pos rfl]
    exact ih hplace (hmeets.tail fun _ => hfalse hplace) hxs
  | case7 quote text c cs hc ih =>
    rw [List.cons_append, scanFrom, if_neg hc]
    refine ih hplace (hmeets.tail ?_) hxs
    rintro rfl
    cases hxs
  | case8 quote text cs ih =>
    rw [List.cons_append, scanFrom, if_pos rfl]
    exact ih hplace (hmeets.tail fun _ => hfalse hplace) hxs
  | case9 quote text c cs hc hquote ih =>
    obtain ⟨more, hmore, rfl⟩ := Option.map_eq_some_iff.1 hxs
    rw [List.cons_append, scanFrom, if_neg hc, if_pos hquote, ih hquote (hmeets.tail fun _ => hfalse hquote) hmore]
    rfl
  | case10 quote text c cs hc hquote ih =>
    obtain ⟨more, hmore, rfl⟩ := Option.map_eq_some_iff.1 hxs
    rw [List.cons_append, scanFrom, if_neg hc, if_neg hquote, ih True.intro (hmeets.tail fun _ _ => rfl) hmore]
    rfl

/-- A text that ends with neither a quote nor a word, so that nothing behind it can be taken for a part of it. -/
def EndsBare (s : String) : Prop := ∀ c ∈ s.toList.getLast?, isQuote c = false ∧ Ascii.isWordPart c = false

/-- A text that begins with neither a quote nor a word. -/
def BeginsBare (s : String) : Prop := ∀ c ∈ s.toList.head?, isQuote c = false ∧ Ascii.isWordPart c = false

private theorem apart_of_bare {s t : String} {xs ys : List Item} (hxs : scan s = some xs) (hys : scan t = some ys)
    (h : EndsBare s ∨ BeginsBare t) : Apart xs ys := by
  have hs : s.toList = xs.flatMap Item.text := text_of_scanFrom hxs
  have ht : t.toList = ys.flatMap Item.text := text_of_scanFrom hys
  intro x hx y hy hword
  rcases h with hends | hbegins
  · cases x with
    | quoted quote text => cases hword
    | plain c =>
      obtain ⟨init, rfl⟩ := List.getLast?_eq_some_iff.1 hx
      have hlast := hends c (by simp [hs, Item.text])
      rw [Item.isWordPart, hlast.2] at hword
      cases hword
  · cases y with
    | quoted quote text => rfl
    | plain c =>
      obtain ⟨more, rfl⟩ := List.head?_eq_some_iff.1 hy
      exact (hbegins c (by simp [ht, Item.text])).2

/-- Two texts are read one after the other. -/
theorem read_append {s t : String} (hs : read s = some as) (ht : read t = some bs) (h : EndsBare s ∨ BeginsBare t) :
    read (s ++ t) = some (as ++ bs) := by
  obtain ⟨xs, hxs, rfl⟩ := Option.map_eq_some_iff.1 hs
  obtain ⟨ys, hys, rfl⟩ := Option.map_eq_some_iff.1 ht
  have hmeets : Meets .outside s.toList t.toList := by
    rcases h with hends | hbegins
    · exact Or.inr ⟨fun _ => rfl, fun c hc => (hends c hc).1⟩
    · exact Or.inl fun c hc => (hbegins c hc).1
  have hscan : scan (s ++ t) = some (xs ++ ys) := by
    rw [scan, String.toList_append]
    exact scanFrom_append True.intro hmeets hxs hys
  rw [read, hscan, Option.map_some, atoms_append (apart_of_bare hxs hys h)]

/-- Between texts that do not touch it with a word or a quote, the text is read as it is alone, the depth behind it
is that before it, and its separators stand deeper. -/
def StaysWhole (text : String) (as : List Atom) : Prop :=
  ∀ before after xs ys d, read before = some xs → EndsBare before → read after = some ys → BeginsBare after →
    xs.foldlM Atom.nest 0 = some d →
      read (before ++ text ++ after) = some (xs ++ as ++ ys) ∧ (xs ++ as).foldlM Atom.nest 0 = some d ∧
        ∀ front a back, as = front ++ a :: back → a.separates = true →
          ∃ d', (xs ++ front).foldlM Atom.nest 0 = some d' ∧ d < d'

private theorem IsSelfContained.staysWhole {text : String} (h : IsSelfContained as) (hread : read text = some as) :
    StaysWhole text as := by
  intro before after xs ys d hbefore hends hafter hbegins hd
  refine ⟨?_, h.behind hd⟩
  exact read_append (read_append hbefore hread (Or.inl hends)) hafter (Or.inr hbegins)

/-! ### Frames -/

/-- Reads a frame, where a gap has to be inside of parentheses. No word may touch a gap or another word. -/
def passFrame : Nat → Bool → List (Option String) → Option Nat
  | d, _, [] => some d
  | d, inWord, some t :: frame =>
    if t.toList = [] ∨ inWord = true ∧ t.toList.head?.any Ascii.isWordPart = true then none
    else ((atoms (t.toList.map .plain)).foldlM Atom.pass d).bind fun d' =>
      passFrame d' (t.toList.getLast?.any Ascii.isWordPart) frame
  | d, inWord, none :: frame => if d = 0 ∨ inWord = true then none else passFrame d true frame

/-- A filled frame is read as the frame is, and begins with no word where it may not. -/
private theorem pass_fill {frame : List (Option String)} {parts : List Sql} {inWord : Bool} {d' : Nat}
    (h : passFrame d inWord frame = some d') (hlength : frame.count none = parts.length)
    (hp : ∀ p ∈ parts, Fits 1 (atoms p.items)) :
    (inWord = true → ∀ x ∈ (Sql.fill frame parts).items.head?, x.isWordPart = false) ∧
      (atoms (Sql.fill frame parts).items).foldlM Atom.pass d = some d' := by
  induction frame generalizing d inWord parts with
  | nil =>
    cases h
    exact ⟨by rintro _ _ ⟨⟩, rfl⟩
  | cons gap frame ih =>
    cases gap with
    | some t =>
      rw [passFrame] at h
      split_ifs at h with hword
      obtain ⟨e, ht, h⟩ := Option.bind_eq_some_iff.1 h
      obtain ⟨hhead, hpass⟩ := ih h (by simpa using hlength) hp
      obtain ⟨hne, hfirst⟩ := not_or.1 hword
      rw [Sql.fill, Sql.items_append, Sql.items_bare]
      have hapart : Apart (t.toList.map .plain) (Sql.fill frame parts).items := by
        intro x hx y hy hx'
        rw [Option.mem_def, List.getLast?_map, Option.map_eq_some_iff] at hx
        obtain ⟨c, hc, rfl⟩ := hx
        exact hhead (by rw [hc]; exact hx') y hy
      constructor
      · rintro hin x hx
        obtain ⟨c, cs, hcs⟩ := List.exists_cons_of_ne_nil hne
        rw [hcs] at hx hfirst
        cases hx
        simpa [hin, Item.isWordPart] using hfirst
      · rw [atoms_append hapart, List.foldlM_append, ht]
        exact hpass
    | none =>
      cases parts with
      | nil => simp at hlength
      | cons p parts =>
        rw [passFrame] at h
        split_ifs at h with hgap
        obtain ⟨hhead, hpass⟩ := ih h (by simpa using hlength) fun q hq => hp q (List.mem_cons_of_mem _ hq)
        obtain ⟨hd, hin⟩ := not_or.1 hgap
        have hapart : Apart p.items (Sql.fill frame parts).items := fun _ _ y hy _ => hhead rfl y hy
        refine ⟨fun h => absurd h hin, ?_⟩
        rw [Sql.fill, Sql.items_append, atoms_append hapart, List.foldlM_append,
          hp p List.mem_cons_self d (Nat.pos_of_ne_zero hd)]
        exact hpass

private theorem fits_fill {frame : List (Option String)} {parts : List Sql} (h : passFrame k false frame = some k)
    (hlength : frame.count none = parts.length) (hp : ∀ p ∈ parts, Fits 1 (atoms p.items)) :
    Fits k (atoms (Sql.fill frame parts).items) :=
  fits_of_pass (pass_fill h hlength hp).2

private theorem passFrame_of_mem : ∀ frame ∈ Sql.frames, passFrame 1 false frame = some 1 := by
  decide +kernel

private theorem passFrame_of_closed : ∀ frame ∈ Sql.closedFrames, passFrame 0 false frame = some 0 := by
  decide +kernel

private theorem passFrame_separator : ∀ separator ∈ Sql.separators,
    passFrame 1 false [none, some separator, none] = some 1 := by
  decide +kernel

private theorem fits_join {separator : String} {parts : List Sql} (hs : separator ∈ Sql.separators) (hne : parts ≠ [])
    (hp : ∀ p ∈ parts, Fits 1 (atoms p.items)) : Fits 1 (atoms (Sql.join separator parts).items) := by
  induction parts with
  | nil => exact absurd rfl hne
  | cons p parts ih =>
    cases parts with
    | nil => exact hp p List.mem_cons_self
    | cons q parts =>
      -- the list is its first part and the rest of it in a frame of the separator
      have hframe : Sql.join separator (p :: q :: parts) =
          Sql.fill [none, some separator, none] [p, Sql.join separator (q :: parts)] := by
        simp only [Sql.fill, Sql.append_nil]
        exact Sql.append_assoc _ _ _
      obtain ⟨hfirst, hmore⟩ := List.forall_mem_cons.1 hp
      have hrest := ih (List.cons_ne_nil q parts) hmore
      rw [hframe]
      exact fits_fill (passFrame_separator separator hs) rfl (List.forall_mem_cons.2 ⟨hfirst, by simpa using hrest⟩)

/-! ### Numbers -/

private theorem atoms_word {cs : List Char} (hne : cs ≠ []) (h : ∀ c ∈ cs, Ascii.isWordPart c = true) :
    atoms (cs.map .plain) = [.word cs] := by
  induction cs with
  | nil => exact absurd rfl hne
  | cons c cs ih =>
    obtain ⟨hc, hcs⟩ := List.forall_mem_cons.1 h
    show (Item.plain c).onto (atoms (cs.map .plain)) = _
    cases cs with
    | nil => simp [atoms, Item.onto, hc]
    | cons d cs =>
      rw [ih (List.cons_ne_nil d cs) hcs]
      simp [Item.onto, hc]

/-- Digits are no keyword. -/
private theorem fits_digits {cs : List Char} (hne : cs ≠ []) (h : ∀ c ∈ cs, Ascii.isDigit c = true) :
    Fits 0 (atoms (cs.map .plain)) := by
  obtain ⟨c, cs, rfl⟩ := List.exists_cons_of_ne_nil hne
  have hkeyword : ∀ name ∈ ["CASE", "END", "AND", "OR", "NOT", "IS"],
      ((c :: cs).map Char.toUpper == name.toList) = false := by
    intro name hname
    have hhead : name.toList.head?.any Ascii.isDigit = false := by
      revert name
      decide
    rw [beq_eq_false_iff_ne]
    intro heq
    rw [← heq, List.map_cons, List.head?_cons, Option.any_some, Ascii.isDigit_toUpper,
      h c List.mem_cons_self] at hhead
    cases hhead
  rw [atoms_word hne fun d hd => Ascii.isWordPart_of_isDigit (h d hd)]
  have hopens : (Atom.word (c :: cs)).opens = false := hkeyword "CASE" (by decide)
  have hcloses : (Atom.word (c :: cs)).closes = false := hkeyword "END" (by decide)
  have hseparates : (Atom.word (c :: cs)).separates = false := by
    refine List.any_eq_false.2 fun name hname => ?_
    rw [hkeyword name (List.mem_cons_of_mem _ (List.mem_cons_of_mem _ hname))]
    decide
  exact fits_of_pass (by simp [Atom.pass, Atom.nest, hopens, hcloses, hseparates])

private theorem fits_number {t : String} (h : IsNumberText t.toList) : Fits 0 (atoms (t : Sql).items) := by
  rw [Sql.items_bare]
  rcases h with h | ⟨whole, fraction, hdigits, h⟩
  · rw [h]
    exact fits_of_pass (by decide)
  · have hwhole := fits_digits hdigits.whole_ne_nil hdigits.whole_isDigit
    rw [h]
    cases fraction with
    | nil =>
      rw [pointed, List.append_nil]
      exact hwhole
    | cons d fraction =>
      have hpoint : Fits 0 [.sign '.'] := fits_of_pass (by decide)
      have hfraction := fits_digits (List.cons_ne_nil d fraction) hdigits.fraction_isDigit
      have hapart : Apart (whole.map .plain) (('.' :: d :: fraction).map .plain) := by
        rintro x - y ⟨⟩ -
        decide
      show Fits 0 (atoms ((whole ++ '.' :: d :: fraction).map .plain))
      rw [List.map_append, atoms_append hapart]
      exact hwhole.append (hpoint.append hfraction)

end Lexical

/-! ### Printed SQL -/

open Lexical

namespace Sql

variable {v : Vocabulary} {s : Sql}

/-- Apart from tables, whose names may be keywords, what is printed can be read inside of parentheses. -/
theorem Printed.fits (hv : ∀ n, ¬ v.table n) (h : Printed v s) : Fits 1 (atoms s.items) := by
  induction h with
  | fill hf hlength _ ih => exact fits_fill (passFrame_of_mem _ hf) hlength ih
  | join hs hne _ ih => exact fits_join hs hne ih
  | number h => exact (fits_number h).mono (Nat.zero_le 1)
  | table h => exact absurd h (hv _)
  | label | column | literal => exact fits_of_pass rfl

/-- Closed SQL can be read anywhere. -/
theorem Closed.fits (hv : ∀ n, ¬ v.table n) (h : Closed v s) : Fits 0 (atoms s.items) := by
  cases h with
  | fill hf hlength hp => exact fits_fill (passFrame_of_closed _ hf) hlength fun p hpart => (hp p hpart).fits hv
  | number h => exact fits_number h
  | column | literal | date => exact fits_of_pass rfl

end Sql

/-- All words but tables, which expressions do not name. -/
def Sql.Vocabulary.withoutTables : Sql.Vocabulary where
  table _ := False
  label _ := True
  column _ := True
  text _ := True
  label_of_fixed _ _ := True.intro
  column_of_fixed _ _ := True.intro
  text_of_fixed _ _ := True.intro

private theorem Scope.Compiled.closed_toSql {s : Scope} {p : Plan} (h : Compiled s p) {sources : Sources} {sql : Sql}
    (hsql : p.expression.toSql sources = .ok sql) : Sql.Closed .withoutTables sql := by
  refine Expression.closed_toSql ?_ hsql
  exact ⟨fun _ _ hw => h.isNumberText hw, fun _ _ _ => True.intro, fun _ _ _ => True.intro,
    fun _ _ _ => ⟨True.intro, True.intro⟩, fun _ _ _ _ _ _ => ⟨True.intro, True.intro⟩,
    fun _ _ _ _ _ => ⟨True.intro, True.intro⟩⟩

/-! ### Plans -/

/-- An expression that occurs in that of a plan, or in what an aggregate of the plan folds or puts between texts. -/
def Plan.HasPart (p : Plan) (e : Expression) : Prop :=
  e.Within p.expression ∨ ∃ a ∈ p.aggregates.values, e.Within a.expression ∨ ∃ d ∈ a.delimiter, e.Within d

/-- All parts are expressions of plans, in the scope of the formula or in that of an aggregate. -/
theorem Scope.Compiled.exists_of_hasPart {s : Scope} {p : Plan} (h : Compiled s p) {e : Expression}
    (he : p.HasPart e) : ∃ s' q, Compiled s' q ∧ q.expression = e := by
  rcases he with hw | ⟨a, ha, hpart⟩
  · obtain ⟨q, hq, he, -⟩ := h.exists_of_within hw
    exact ⟨s, q, hq, he⟩
  · obtain ⟨d, -, -, hat⟩ := (h.collects.all a ha).exists_destination
    rcases hpart with hw | ⟨delimiter, hd, hw⟩
    · obtain ⟨inner, hinner, heq, -⟩ := hat.inner
      rw [heq] at hw
      obtain ⟨q, hq, he, -⟩ := hinner.exists_of_within hw
      exact ⟨s.nested d, q, hq, he⟩
    · obtain ⟨inner, hinner, heq, -⟩ := hat.delimiter delimiter hd
      rw [heq] at hw
      obtain ⟨q, hq, he, -⟩ := hinner.exists_of_within hw
      exact ⟨s, q, hq, he⟩

/-- What a formula prints holds together. Let an expression occur in that of a plan or in one of its aggregates. It
can be printed if the joins and aggregates that it reads are found, and what is printed is self-contained:
parentheses and `CASE` match, commas and operators are inside of them only, and wherever the text is put, it is read
as one operand. -/
theorem Plan.parts_are_operands {text : String} {schema : Table} {maxDepth : Nat} {p : Plan} {e : Expression}
    (h : Plan.ofFormula text schema maxDepth = .ok p) (he : p.HasPart e) (sources : Sources) :
    ((∀ info join name, (Expression.related info join name).Within e → (sources.joins.lookup join).isSome) →
      (∀ info ref, (Expression.aggregate info ref).Within e → (sources.aggregates.lookup ref).isSome) →
      ∃ sql, e.toSql sources = .ok sql) ∧
    ∀ sql, e.toSql sources = .ok sql →
      ∃ as, Lexical.read sql.text = some as ∧ IsSelfContained as ∧ StaysWhole sql.text as := by
  obtain ⟨s, q, hq, rfl⟩ := (Plan.compiled_of_ofFormula h).exists_of_hasPart he
  refine ⟨?_, ?_⟩
  · intro hjoins haggregates
    exact Expression.exists_toSql ⟨hjoins, haggregates, fun _ _ _ hw printed => hq.isSome_call hw printed⟩
  · intro sql hsql
    have hclosed := hq.closed_toSql hsql
    have hread : Lexical.read sql.text = some (atoms sql.items) := by
      rw [Lexical.read, hclosed.printed.scan_text, Option.map_some]
    have hself : IsSelfContained (atoms sql.items) := (hclosed.fits fun _ hn => hn).isSelfContained
    exact ⟨_, hread, hself, hself.staysWhole hread⟩

/-- The folded value of an aggregate, printed as a `CASE` with operators in it. -/
theorem Plan.parts_are_operands_case :
    ∃ p a sql, Plan.ofFormula "SUM_AGG(orders.lines, IF(amount > null, -amount, amount / amount))" .tangled 3 =
      .ok p ∧ a ∈ p.aggregates.values ∧ a.expression.toSql ⟨"t", [], []⟩ = .ok sql ∧
      sql.text = "CASE WHEN (\"t\".\"amount\" > NULL) THEN (-\"t\".\"amount\") " ++
        "ELSE (\"t\".\"amount\" / NULLIF(\"t\".\"amount\", 0)) END" ∧
      ∃ as, Lexical.read sql.text = some as ∧ IsSelfContained as ∧ StaysWhole sql.text as := by
  obtain ⟨p, hp, hprinted⟩ := exists_ofFormula_of_check
    "SUM_AGG(orders.lines, IF(amount > null, -amount, amount / amount))" .tangled 3
    (fun p => p.aggregates.values.map (fun a => (a.expression.toSql ⟨"t", [], []⟩).toOption.map (·.text)) =
      [some ("CASE WHEN (\"t\".\"amount\" > NULL) THEN (-\"t\".\"amount\") " ++
        "ELSE (\"t\".\"amount\" / NULLIF(\"t\".\"amount\", 0)) END")]) (by decide +kernel)
  obtain ⟨a, ha, hprinted⟩ := List.map_eq_singleton_iff.1 hprinted
  obtain ⟨sql, hsql, htext⟩ := Option.map_eq_some_iff.1 hprinted
  have hmem : a ∈ p.aggregates.values := by simp [ha]
  have hok : a.expression.toSql ⟨"t", [], []⟩ = .ok sql := by
    cases hresult : a.expression.toSql ⟨"t", [], []⟩ with
    | error e =>
      rw [hresult] at hsql
      cases hsql
    | ok other =>
      rw [hresult] at hsql
      cases hsql
      rfl
  have hpart : p.HasPart a.expression := Or.inr ⟨a, hmem, Or.inl (.refl _)⟩
  exact ⟨p, a, sql, hp, hmem, hok, htext, (Plan.parts_are_operands hp hpart _).2 sql hok⟩

end FormulaQuery

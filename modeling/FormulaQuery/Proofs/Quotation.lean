import FormulaQuery.Proofs.Identifier

/-!
# Reading escaped text back

Where an escaped text ends can be seen from the text itself, so it is known by what is written for it, whatever
follows (`quoted_append_inj`). The one escape without a fixed length, a code point, is closed by a brace.
-/

namespace FormulaQuery.Escaped

/-! ### Code points -/

private theorem digitChar_inj {m n : Nat} (hm : m < 16) (hn : n < 16) (h : m.digitChar = n.digitChar) : m = n := by
  have : ∀ i < 16, ∀ j < 16, i.digitChar = j.digitChar → i = j := by decide
  exact this m hm n hn h

private theorem toDigits_inj {m n : Nat} (h : Nat.toDigits 16 m = Nat.toDigits 16 n) : m = n := by
  induction m using Nat.strongRecOn generalizing n with
  | ind m ih =>
    rw [Nat.toDigits_eq_if (b := 16) (n := m) (by decide), Nat.toDigits_eq_if (b := 16) (n := n) (by decide)] at h
    by_cases hm : m < 16
    · by_cases hn : n < 16
      · rw [if_pos hm, if_pos hn] at h
        exact digitChar_inj hm hn (List.cons.inj h).1
      · rw [if_pos hm, if_neg hn] at h
        have hlength := congrArg List.length h
        simp at hlength
    · by_cases hn : n < 16
      · rw [if_neg hm, if_pos hn] at h
        have hlength := congrArg List.length h
        simp at hlength
      · rw [if_neg hm, if_neg hn] at h
        obtain ⟨hfront, hlast⟩ := List.append_inj' h rfl
        have hquotient := ih (m / 16) (by omega) hfront
        have hrest := digitChar_inj (Nat.mod_lt m (by decide)) (Nat.mod_lt n (by decide)) (List.cons.inj hlast).1
        omega

private theorem brace_ne_digitChar {n : Nat} (h : n < 16) : n.digitChar ≠ '\x7d' := by
  revert n
  decide

private theorem brace_not_mem_toDigits (n : Nat) : ∀ c ∈ Nat.toDigits 16 n, ¬c = '\x7d' := by
  induction n using Nat.strongRecOn with
  | ind n ih =>
    intro c hc
    rw [Nat.toDigits_eq_if (by decide)] at hc
    by_cases hn : n < 16
    · rw [if_pos hn] at hc
      rw [List.mem_singleton.1 hc]
      exact brace_ne_digitChar hn
    · rw [if_neg hn] at hc
      rcases List.mem_append.1 hc with hc | hc
      · exact ih (n / 16) (by omega) c hc
      · rw [List.mem_singleton.1 hc]
        exact brace_ne_digitChar (Nat.mod_lt n (by decide))

/-! ### Characters -/

/-- The characters that are written as a backslash and a letter or sign, with that. -/
def shortEscapes : List (Char × Char) :=
  [('"', '"'), ('\\', '\\'), ('\n', 'n'), ('\r', 'r'), ('\t', 't'), ('\x00', '0')]

/-- The three ways in which a character is written. -/
private theorem escapeChar_cases (c : Char) :
    (∃ sign, (c, sign) ∈ shortEscapes ∧ escapeChar c = ['\\', sign]) ∨
      escapeChar c = '\\' :: 'u' :: '\x7b' :: (Nat.toDigits 16 c.toNat ++ ['\x7d']) ∨
      (c ≠ '\\' ∧ c ≠ '"' ∧ escapeChar c = [c]) := by
  by_cases hs : c ∈ shortEscapes.map (·.1)
  · left
    obtain ⟨⟨d, sign⟩, hmem, rfl⟩ := List.mem_map.1 hs
    have : ∀ p ∈ shortEscapes, escapeChar p.1 = ['\\', p.2] := by decide
    exact ⟨sign, hmem, this _ hmem⟩
  · right
    simp only [shortEscapes, List.map_cons, List.map_nil, List.mem_cons, List.not_mem_nil, or_false, not_or] at hs
    obtain ⟨h₁, h₂, h₃, h₄, h₅, h₆⟩ := hs
    unfold escapeChar
    rw [if_neg h₁, if_neg h₂, if_neg h₃, if_neg h₄, if_neg h₅, if_neg h₆]
    by_cases hu : Unprintable.isUnprintable c = true
    · left
      rw [if_pos hu]
      rfl
    · right
      rw [if_neg hu]
      exact ⟨h₂, h₁, rfl⟩

private theorem shortEscapes_inj {c d sign : Char} (hc : (c, sign) ∈ shortEscapes) (hd : (d, sign) ∈ shortEscapes) :
    c = d := by
  have : ∀ p ∈ shortEscapes, ∀ q ∈ shortEscapes, p.2 = q.2 → p.1 = q.1 := by decide
  exact this _ hc _ hd rfl

private theorem not_mem_shortEscapes (c : Char) : (c, 'u') ∉ shortEscapes := by
  have : ∀ p ∈ shortEscapes, p.2 ≠ 'u' := by decide
  exact fun h => this _ h rfl

private theorem escapeChar_append_inj {c d : Char} {u v : List Char} (h : escapeChar c ++ u = escapeChar d ++ v) :
    c = d ∧ u = v := by
  rcases escapeChar_cases c with ⟨sign, hs, hc⟩ | hc | ⟨hbackslash, -, hc⟩
  · rcases escapeChar_cases d with ⟨sign', hs', hd⟩ | hd | ⟨hbackslash', -, hd⟩
    · rw [hc, hd] at h
      cases h
      exact ⟨shortEscapes_inj hs hs', rfl⟩
    · rw [hc, hd] at h
      cases h
      exact absurd hs (not_mem_shortEscapes c)
    · rw [hc, hd] at h
      exact absurd (List.cons.inj h).1.symm hbackslash'
  · rcases escapeChar_cases d with ⟨sign', hs', hd⟩ | hd | ⟨hbackslash', -, hd⟩
    · rw [hc, hd] at h
      cases h
      exact absurd hs' (not_mem_shortEscapes d)
    · -- both are code points, and each is read up to its brace
      rw [hc, hd] at h
      simp only [List.cons_append, List.append_assoc, List.nil_append, List.cons.injEq, true_and] at h
      obtain ⟨hdigits, -, hrest⟩ := append_stop_inj (· = '\x7d') (brace_not_mem_toDigits _) (brace_not_mem_toDigits _)
        rfl rfl h
      exact ⟨Char.toNat_inj.1 (toDigits_inj hdigits), hrest⟩
    · rw [hc, hd] at h
      exact absurd (List.cons.inj h).1.symm hbackslash'
  · rcases escapeChar_cases d with ⟨sign', hs', hd⟩ | hd | ⟨-, -, hd⟩
    · rw [hc, hd] at h
      exact absurd (List.cons.inj h).1 hbackslash
    · rw [hc, hd] at h
      exact absurd (List.cons.inj h).1 hbackslash
    · rw [hc, hd] at h
      exact List.cons.inj h

private theorem quote_ne_escapeChar {c : Char} {u v : List Char} : '"' :: u ≠ escapeChar c ++ v := by
  intro h
  rcases escapeChar_cases c with ⟨sign, -, hc⟩ | hc | ⟨-, hquote, hc⟩
  · rw [hc] at h
    exact absurd (List.cons.inj h).1 (by decide)
  · rw [hc] at h
    exact absurd (List.cons.inj h).1 (by decide)
  · rw [hc] at h
    exact hquote (List.cons.inj h).1.symm

/-! ### Texts -/

private theorem flatMap_escapeChar_inj {xs ys u v : List Char}
    (h : xs.flatMap escapeChar ++ '"' :: u = ys.flatMap escapeChar ++ '"' :: v) : xs = ys ∧ u = v := by
  induction xs generalizing ys with
  | nil =>
    cases ys with
    | nil => exact ⟨rfl, (List.cons.inj h).2⟩
    | cons y ys =>
      rw [List.flatMap_nil, List.nil_append, List.flatMap_cons, List.append_assoc] at h
      exact absurd h quote_ne_escapeChar
  | cons x xs ih =>
    cases ys with
    | nil =>
      rw [List.flatMap_nil, List.nil_append, List.flatMap_cons, List.append_assoc] at h
      exact absurd h.symm quote_ne_escapeChar
    | cons y ys =>
      rw [List.flatMap_cons, List.flatMap_cons, List.append_assoc, List.append_assoc] at h
      obtain ⟨rfl, htail⟩ := escapeChar_append_inj h
      obtain ⟨rfl, hrest⟩ := ih htail
      exact ⟨rfl, hrest⟩

/-- An escaped text is known by what is written for it, whatever follows. -/
theorem quoted_append_inj {s t : String} {u v : List Char}
    (h : (quoted s).toList ++ u = (quoted t).toList ++ v) : s = t ∧ u = v := by
  rw [quoted, quoted, String.toList_ofList, String.toList_ofList, List.cons_append, List.cons_append,
    List.append_assoc, List.append_assoc] at h
  obtain ⟨hchars, hrest⟩ := flatMap_escapeChar_inj (List.cons.inj h).2
  exact ⟨String.toList_inj.1 hchars, hrest⟩

theorem quoted_toList_ne_nil (s : String) : (quoted s).toList ≠ [] := by
  rw [quoted, String.toList_ofList]
  exact List.cons_ne_nil _ _

end FormulaQuery.Escaped

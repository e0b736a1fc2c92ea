import Astreum.ReadBack

namespace Astreum

section Parts

open Python

variable {cs : List Char}

theorem takeParens_append (n depth : Nat) (cs : List Char) :
    (takeParens n depth cs).1 ++ (takeParens n depth cs).2 = cs := by
  induction n generalizing depth cs with
  | zero => cases cs <;> rfl
  | succ n ih =>
    cases cs with
    | nil => rfl
    | cons ch cs =>
      rw [takeParens]
      split
      · rfl
      split
      · have hline := ih depth (skipLine cs)
        simp only [List.cons_append, List.append_assoc, hline]
        rw [skipLine, List.takeWhile_append_dropWhile]
      · simp only [List.cons_append, ih]

theorem takeAtom_append (cs : List Char) : (takeAtom cs).1 ++ (takeAtom cs).2 = cs := by
  fun_induction takeAtom cs with
  | case3 ch cs _ _ ih => rw [List.cons_append, ih]
  | _ => rfl

theorem length_takeParens_le (n depth : Nat) (cs : List Char) :
    (takeParens n depth cs).1.length ≤ cs.length ∧
      (takeParens n depth cs).2.length ≤ cs.length := by
  have hlength := congrArg List.length (takeParens_append n depth cs)
  rw [List.length_append] at hlength
  omega

theorem length_takeAtom_le (cs : List Char) : (takeAtom cs).2.length ≤ cs.length := by
  have hlength := congrArg List.length (takeAtom_append cs)
  rw [List.length_append] at hlength
  omega

theorem length_span_le (p : Char → Bool) (cs : List Char) :
    ((cs.span p).2.drop 1).length ≤ cs.length := by
  simp only [List.span_eq_takeWhile_dropWhile, List.length_drop]
  have hlength := (List.dropWhile_suffix p (l := cs)).sublist.length_le
  omega

end Parts

section Fuel

/-- Enough fuel is enough: the tokens do not depend on it. -/
theorem tokenizeFrom_congr (n m : Nat) (cs cur : List Char) (hn : cs.length < n)
    (hm : cs.length < m) : tokenizeFrom n cur cs = tokenizeFrom m cur cs := by
  induction n generalizing m cs cur with
  | zero => omega
  | succ n ih =>
    obtain ⟨m, rfl⟩ : ∃ m', m = m' + 1 := ⟨m - 1, by omega⟩
    have hat : ∀ (rest cur : List Char), rest.length ≤ cs.length →
        tokenizeAt n cur rest = tokenizeAt m cur rest := by
      intro rest cur hrest
      rw [tokenizeAt.eq_def, tokenizeAt.eq_def]
      split
      · rfl
      · rename_i tail
        rw [List.length_cons] at hrest
        have hlength := length_span_le (· != '"') tail
        simp only [ih m ((tail.span (· != '"')).2.drop 1) [] (by omega) (by omega)]
      · rename_i tail
        rw [List.length_cons] at hrest
        split
        · split
          · rename_i more _
            have hlength := length_takeParens_le ('(' :: more).length 0 ('(' :: more)
            simp only [ih m (takeParens ('(' :: more).length 0 ('(' :: more)).1 [] (by omega)
              (by omega), ih m (takeParens ('(' :: more).length 0 ('(' :: more)).2 [] (by omega)
              (by omega)]
          · have hlength := length_takeAtom_le tail
            simp only [ih m (takeAtom tail).2 [] (by omega) (by omega)]
        · rw [ih m tail [] (by omega) (by omega)]
      · rename_i ch tail _ _
        rw [List.length_cons] at hrest
        rw [ih m tail [] (by omega) (by omega), ih m tail (ch :: cur) (by omega) (by omega)]
    have hblank := length_skipBlank_le cs.length cs
    rw [tokenizeFrom_eq, tokenizeFrom_eq, hat _ _ hblank, hat _ _ hblank]

/-- The tokens of a text with the characters of a token under way. -/
def tokensFrom (cur cs : List Char) : List String := tokenizeFrom (cs.length + 1) cur cs

theorem tokenizeFrom_eq_tokensFrom {n : Nat} {cs : List Char} (hn : cs.length < n)
    (cur : List Char) : tokenizeFrom n cur cs = tokensFrom cur cs :=
  tokenizeFrom_congr n _ cs cur hn (Nat.lt_succ_self _)

theorem tokenize_eq (source : String) : tokenize source = tokensFrom [] source.toList := by
  rw [tokenize, ← String.length_toList, tokensFrom]

end Fuel

section Equations

open Python

variable {ch : Char} {cs cur body : List Char}

theorem skipBlank_congr (n m : Nat) (cs : List Char) (hn : cs.length ≤ n) (hm : cs.length ≤ m) :
    skipBlank n cs = skipBlank m cs := by
  induction n generalizing m cs with
  | zero =>
    rw [List.eq_nil_of_length_eq_zero (Nat.le_zero.mp hn)]
    cases m <;> rfl
  | succ n ih =>
    cases cs with
    | nil => cases m <;> rfl
    | cons ch cs =>
      rw [List.length_cons] at hn hm
      obtain ⟨m, rfl⟩ : ∃ m', m = m' + 1 := ⟨m - 1, by omega⟩
      have hline : (skipLine cs).length ≤ cs.length :=
        (List.dropWhile_suffix _).sublist.length_le
      rw [skipBlank, skipBlank, ih m cs (by omega) (by omega),
        ih m (skipLine cs) (by omega) (by omega)]

theorem tokensFrom_nil : tokensFrom cur [] = flush cur := by
  rw [tokensFrom, tokenizeFrom_of_not_blank _ _ rfl, tokenizeAt]

/-- A blank or a comment ends the token under way. -/
theorem tokensFrom_of_skip {rest : List Char} (hrest : rest.length ≤ cs.length)
    (hskip : skipBlank (ch :: cs).length (ch :: cs) = skipBlank rest.length rest) :
    tokensFrom cur (ch :: cs) = flush cur ++ tokensFrom [] rest := by
  have hblank := length_skipBlank_le rest.length rest
  have hne : (skipBlank rest.length rest).length ≠ (ch :: cs).length := by
    rw [List.length_cons]
    omega
  have hrest' : tokensFrom [] rest = tokenizeFrom ((ch :: cs).length + 1) [] rest :=
    (tokenizeFrom_eq_tokensFrom (by rw [List.length_cons]; omega) []).symm
  rw [hrest', tokensFrom, tokenizeFrom_eq, tokenizeFrom_eq, hskip, if_neg hne]
  split <;> rfl

theorem tokensFrom_blank (h : isSpace ch = true) :
    tokensFrom cur (ch :: cs) = flush cur ++ tokensFrom [] cs := by
  refine tokensFrom_of_skip (Nat.le_refl _) ?_
  rw [List.length_cons, skipBlank, if_pos h]

theorem tokensFrom_comment :
    tokensFrom cur (';' :: cs) = flush cur ++ tokensFrom [] (skipLine cs) := by
  have hline : (skipLine cs).length ≤ cs.length :=
    (List.dropWhile_suffix _).sublist.length_le
  refine tokensFrom_of_skip hline ?_
  rw [List.length_cons, skipBlank, if_neg (by decide), if_pos rfl]
  exact skipBlank_congr _ _ _ hline (Nat.le_refl _)

/-- What the tokenizer does at a character, in terms of the tokens that follow. -/
theorem tokensFrom_at (hspace : isSpace ch = false) (hcomment : ch ≠ ';') :
    tokensFrom cur (ch :: cs) = tokenizeAt (ch :: cs).length cur (ch :: cs) := by
  rw [tokensFrom, tokenizeFrom_of_not_blank _ _ (skipBlank_of_not _ hspace hcomment)]

theorem tokensFrom_paren (h : ch = '(' ∨ ch = ')') :
    tokensFrom cur (ch :: cs) = flush cur ++ String.ofList [ch] :: tokensFrom [] cs := by
  have hcs : tokenizeFrom (ch :: cs).length [] cs = tokensFrom [] cs :=
    tokenizeFrom_eq_tokensFrom (Nat.lt_succ_self cs.length) []
  have hspace : isSpace ch = false := by rcases h with rfl | rfl <;> decide
  have hne : ch ≠ ';' ∧ ch ≠ '"' ∧ ch ≠ '\'' := by rcases h with rfl | rfl <;> decide
  rw [tokensFrom_at hspace hne.1, tokenizeAt, if_pos h, hcs]
  · exact hne.2.1
  · exact hne.2.2

theorem tokensFrom_string (hbody : '"' ∉ body) :
    tokensFrom cur ('"' :: body ++ '"' :: cs) =
      flush cur ++ String.ofList ('"' :: body ++ ['"']) :: tokensFrom [] cs := by
  rw [List.cons_append, tokensFrom_at (by decide) (by decide), tokenizeAt, span_quote hbody]
  simp only [List.drop_one, List.tail_cons]
  rw [tokenizeFrom_eq_tokensFrom (by simp; omega)]
  rfl

/-- A character of an atom. -/
theorem tokensFrom_char (hstop : atomStop ch = false) (hquote : ch ≠ '\'') :
    tokensFrom cur (ch :: cs) = tokensFrom (ch :: cur) cs := by
  rw [tokensFrom, tokenizeFrom_plain ⟨hstop, hquote⟩]
  exact tokenizeFrom_eq_tokensFrom (Nat.lt_succ_self _) _

theorem tokensFrom_quoted_list :
    tokensFrom cur ('\'' :: '(' :: cs) =
      flush cur ++ "(" :: "'" :: tokensFrom [] (takeParens ('(' :: cs).length 0 ('(' :: cs)).1 ++
        ")" :: tokensFrom [] (takeParens ('(' :: cs).length 0 ('(' :: cs)).2 := by
  have hlength := length_takeParens_le ('(' :: cs).length 0 ('(' :: cs)
  have hquotes : quotes ('(' :: cs) = true := by
    rw [quotes]
    · rfl
    · exact fun _ h => absurd h (by decide)
  rw [tokensFrom_at (by decide) (by decide), tokenizeAt, if_pos hquotes]
  have hlt : ∀ {n : Nat}, n ≤ ('(' :: cs).length → n < ('\'' :: '(' :: cs).length :=
    Nat.lt_succ_of_le
  dsimp only
  rw [tokenizeFrom_eq_tokensFrom (hlt hlength.1), tokenizeFrom_eq_tokensFrom (hlt hlength.2)]

theorem tokensFrom_quoted_atom (hquotes : quotes cs = true) (hlist : ∀ more, cs ≠ '(' :: more) :
    tokensFrom cur ('\'' :: cs) =
      flush cur ++ "(" :: "'" :: String.ofList (takeAtom cs).1 :: ")" ::
        tokensFrom [] (takeAtom cs).2 := by
  have hlt : (takeAtom cs).2.length < ('\'' :: cs).length :=
    Nat.lt_succ_of_le (length_takeAtom_le cs)
  rw [tokensFrom_at (by decide) (by decide), tokenizeAt, if_pos hquotes]
  · dsimp only
    rw [tokenizeFrom_eq_tokensFrom hlt]
  · exact hlist

theorem tokensFrom_quote_alone (hquotes : quotes cs = false) :
    tokensFrom cur ('\'' :: cs) = flush cur ++ "'" :: tokensFrom [] cs := by
  have hcs : tokenizeFrom ('\'' :: cs).length [] cs = tokensFrom [] cs :=
    tokenizeFrom_eq_tokensFrom (Nat.lt_succ_self cs.length) []
  rw [tokensFrom_at (by decide) (by decide), tokenizeAt.eq_def]
  simp only [hquotes, Bool.false_eq_true, if_false, hcs]

end Equations

end Astreum

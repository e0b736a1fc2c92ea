import Astreum.TokenStream

namespace Astreum

section Grammar

open Python

/-- One expression of a source text, or what stands between the parentheses of a list. -/
inductive SourceKind where
  | expr
  | inner

/-- The source expressions whose strings have bodies of a kind. -/
inductive SourceText (body : List Char → Prop) : SourceKind → List Char → Prop
  | word {w : List Char} (hne : w ≠ []) (hw : ∀ ch ∈ w, plainChar ch) : SourceText body .expr w
  | string {s : List Char} (hquote : '"' ∉ s) (hbody : body s) :
      SourceText body .expr ('"' :: s ++ ['"'])
  | quote {e : List Char} (he : SourceText body .expr e) : SourceText body .expr ('\'' :: e)
  | list {cs : List Char} (hcs : SourceText body .inner cs) :
      SourceText body .expr ('(' :: cs ++ [')'])
  | nil : SourceText body .inner []
  | blank {ch : Char} {cs : List Char} (hch : isSpace ch = true) (hcs : SourceText body .inner cs) :
      SourceText body .inner (ch :: cs)
  | comment {line cs : List Char} (hline : '\n' ∉ line) (hcs : SourceText body .inner cs) :
      SourceText body .inner (';' :: line ++ '\n' :: cs)
  | item {e cs : List Char} (he : SourceText body .expr e) (hcs : SourceText body .inner cs) :
      SourceText body .inner (e ++ cs)

/-- Any body of a string. -/
def anyBody (_ : List Char) : Prop := True

/-- After `pre` the tokenizer has the tokens `out` and the characters `cur` of a token under
way, whatever follows. -/
def StandsAfter (pre : List Char) (out : List String) (cur : List Char) : Prop :=
  ∀ cs, tokensFrom [] (pre ++ cs) = out ++ tokensFrom cur cs

theorem standsAfter_nil : StandsAfter [] [] [] := fun _ => rfl

end Grammar

section Lines

open Python

variable {cs cur line rest : List Char}

def firstLine : List Char → List Char := List.takeWhile (· != '\n')

theorem firstLine_append_skipLine (cs : List Char) : firstLine cs ++ skipLine cs = cs :=
  List.takeWhile_append_dropWhile

/-- Blanks, and perhaps a comment behind them. -/
def IdleLine (line : List Char) : Prop :=
  ∀ ch cs, line.dropWhile isSpace = ch :: cs → ch = ';'

theorem skipLine_append (hline : '\n' ∉ line) (rest : List Char) :
    skipLine (line ++ rest) = skipLine rest := by
  rw [skipLine, List.dropWhile_append_of_pos]
  intro ch hch
  rw [bne_iff_ne]
  rintro rfl
  exact hline hch

theorem newline_not_mem_firstLine (cs : List Char) : '\n' ∉ firstLine cs := by
  intro hmem
  have hall := List.all_eq_true.mp (List.all_takeWhile (p := (· != '\n')) (l := cs)) '\n' hmem
  exact absurd hall (by decide)

/-- What is left after a line starts with its end. -/
theorem skipLine_cases (cs : List Char) :
    skipLine cs = [] ∨ ∃ more, skipLine cs = '\n' :: more := by
  rcases h : skipLine cs with - | ⟨ch, more⟩
  · exact .inl rfl
  · have hhead := List.head?_dropWhile_not (· != '\n') cs
    have hdrop : cs.dropWhile (· != '\n') = ch :: more := h
    rw [hdrop] at hhead
    have hch : ch = '\n' := by simpa using hhead
    exact .inr ⟨more, by rw [hch]⟩

theorem tokensFrom_newline (cs : List Char) :
    tokensFrom cur ('\n' :: cs) = flush cur ++ tokensFrom [] ('\n' :: cs) := by
  rw [tokensFrom_blank (by decide), tokensFrom_blank (by decide)]
  rfl

theorem tokensFrom_skipLine (cur cs : List Char) :
    tokensFrom cur (skipLine cs) = flush cur ++ tokensFrom [] (skipLine cs) := by
  rcases skipLine_cases cs with h | ⟨more, h⟩
  · rw [h, tokensFrom_nil, tokensFrom_nil]
    exact (List.append_nil _).symm
  · rw [h, tokensFrom_newline]

/-- A comment is removed up to the end of its line. -/
theorem tokensFrom_line_comment (cur : List Char) (hline : '\n' ∉ line)
    (hrest : rest = [] ∨ ∃ more, rest = '\n' :: more) :
    tokensFrom cur (';' :: line ++ rest) = tokensFrom cur rest := by
  have hskip : skipLine rest = rest := by rcases hrest with rfl | ⟨more, rfl⟩ <;> rfl
  rw [List.cons_append, tokensFrom_comment, skipLine_append hline, ← tokensFrom_skipLine, hskip]

/-- An idle line has no tokens. -/
theorem tokensFrom_of_idle (hidle : IdleLine (firstLine cs)) :
    tokensFrom cur cs = flush cur ++ tokensFrom [] (skipLine cs) := by
  induction cs generalizing cur with
  | nil =>
    rw [tokensFrom_nil, skipLine, List.dropWhile_nil, tokensFrom_nil]
    exact (List.append_nil _).symm
  | cons ch cs ih =>
    by_cases hnewline : ch = '\n'
    · subst hnewline
      exact tokensFrom_newline cs
    have hfirst : firstLine (ch :: cs) = ch :: firstLine cs :=
      List.takeWhile_cons_of_pos (by simpa using hnewline)
    have hskip : skipLine (ch :: cs) = skipLine cs :=
      List.dropWhile_cons_of_pos (by simpa using hnewline)
    rw [hfirst] at hidle
    by_cases hspace : isSpace ch = true
    · have hidle' : IdleLine (firstLine cs) := by
        rw [IdleLine, List.dropWhile_cons_of_pos hspace] at hidle
        exact hidle
      rw [tokensFrom_blank hspace, ih hidle', hskip]
      rfl
    · have hcomment : ch = ';' :=
        hidle ch (firstLine cs) (List.dropWhile_cons_of_neg hspace)
      subst hcomment
      rw [tokensFrom_comment, hskip]

/-- The tokens of a line without quote marks are followed by those of the next lines. -/
theorem tokensFrom_line (cur : List Char) (hquote : '"' ∉ line ∧ '\'' ∉ line) (hline : '\n' ∉ line)
    (hrest : rest = [] ∨ ∃ more, rest = '\n' :: more) :
    tokensFrom cur (line ++ rest) = tokensFrom cur line ++ tokensFrom [] rest := by
  have hskip : skipLine rest = rest := by rcases hrest with rfl | ⟨more, rfl⟩ <;> rfl
  induction line generalizing cur with
  | nil =>
    have hsplit := tokensFrom_skipLine cur rest
    rw [hskip] at hsplit
    rw [List.nil_append, hsplit, tokensFrom_nil]
  | cons ch line ih =>
    simp only [List.mem_cons, not_or] at hquote hline
    have ih := fun cur => ih cur ⟨hquote.1.2, hquote.2.2⟩ hline.2
    rw [List.cons_append]
    by_cases hspace : isSpace ch = true
    · rw [tokensFrom_blank hspace, tokensFrom_blank hspace, ih, List.append_assoc]
    by_cases hcomment : ch = ';'
    · subst hcomment
      have hend : skipLine line = [] := by
        have happend := skipLine_append hline.2 []
        rwa [List.append_nil] at happend
      rw [tokensFrom_comment, tokensFrom_comment, skipLine_append hline.2, hend, hskip,
        tokensFrom_nil, List.append_assoc]
      rfl
    by_cases hparen : ch = '(' ∨ ch = ')'
    · rw [tokensFrom_paren hparen, tokensFrom_paren hparen, ih, List.append_assoc]
      rfl
    · have hstop : atomStop ch = false := by
        obtain ⟨hopen, hclose⟩ := not_or.mp hparen
        simp [atomStop, hspace, hopen, hclose, hcomment, Ne.symm hquote.1.1]
      have hchar := Ne.symm hquote.2.1
      rw [tokensFrom_char hstop hchar, tokensFrom_char hstop hchar, ih]

/-- How many characters the tokens have. -/
def tokenChars (tokens : List String) : Nat := (tokens.map fun t => t.toList.length).sum

theorem tokenChars_append (ts ts' : List String) :
    tokenChars (ts ++ ts') = tokenChars ts + tokenChars ts' := by
  rw [tokenChars, List.map_append, List.sum_append]
  rfl

theorem tokenChars_flush (cur : List Char) : tokenChars (flush cur) = cur.length := by
  rw [flush]
  split
  · rename_i h
    rw [h]
    rfl
  · simp [tokenChars]

/-- A line that is not idle adds to the token under way, or has tokens of its own. -/
theorem le_tokenChars (cur : List Char) (hquote : '"' ∉ line ∧ '\'' ∉ line) :
    cur.length ≤ tokenChars (tokensFrom cur line) ∧
      (¬IdleLine line → cur.length < tokenChars (tokensFrom cur line)) := by
  induction line generalizing cur with
  | nil =>
    rw [tokensFrom_nil, tokenChars_flush]
    refine ⟨Nat.le_refl _, fun hidle => absurd ?_ hidle⟩
    intro ch cs h
    cases h
  | cons ch line ih =>
    simp only [List.mem_cons, not_or] at hquote
    have ih := fun cur => ih cur ⟨hquote.1.2, hquote.2.2⟩
    by_cases hspace : isSpace ch = true
    · rw [tokensFrom_blank hspace, tokenChars_append, tokenChars_flush]
      refine ⟨Nat.le_add_right _ _, fun hidle => ?_⟩
      have hidle' : ¬IdleLine line := by
        rw [IdleLine, List.dropWhile_cons_of_pos hspace] at hidle
        exact hidle
      have hpos := (ih []).2 hidle'
      rw [List.length_nil] at hpos
      omega
    by_cases hcomment : ch = ';'
    · subst hcomment
      rw [tokensFrom_comment, tokenChars_append, tokenChars_flush]
      refine ⟨Nat.le_add_right _ _, fun hidle => absurd ?_ hidle⟩
      intro c cs h
      rw [List.dropWhile_cons_of_neg (by decide)] at h
      exact (List.cons.inj h).1.symm
    have hlt : cur.length < tokenChars (tokensFrom cur (ch :: line)) := by
      by_cases hparen : ch = '(' ∨ ch = ')'
      · rw [tokensFrom_paren hparen, tokenChars_append, tokenChars_flush]
        simp [tokenChars]
      · have hstop : atomStop ch = false := by
          obtain ⟨hopen, hclose⟩ := not_or.mp hparen
          simp [atomStop, hspace, hopen, hclose, hcomment, Ne.symm hquote.1.1]
        rw [tokensFrom_char hstop (Ne.symm hquote.2.1)]
        have hle := (ih (ch :: cur)).1
        rw [List.length_cons] at hle
        omega
    exact ⟨hlt.le, fun _ => hlt⟩

end Lines

section SettledLines

open Python

variable {cs cs' cur line : List Char} {ch : Char}

/-- The tokens of a text are settled but for the last one, whatever follows. -/
def Settles (cs : List Char) : Prop :=
  ∀ cur, ∃ out cur', ∀ post, tokensFrom cur (cs ++ post) = out ++ tokensFrom cur' post

/-- So they are for the text behind each of its line ends. -/
structure SettledLines (cs : List Char) : Prop where
  whole : Settles cs
  behind : ∀ p t, cs = p ++ '\n' :: t → Settles t

theorem settles_nil : Settles [] := fun cur => ⟨[], cur, fun _ => rfl⟩

theorem Settles.append (h : Settles cs) (h' : Settles cs') : Settles (cs ++ cs') := by
  intro cur
  obtain ⟨out, cur₁, hout⟩ := h cur
  obtain ⟨out', cur₂, hout'⟩ := h' cur₁
  refine ⟨out ++ out', cur₂, fun post => ?_⟩
  rw [List.append_assoc, hout, hout', List.append_assoc]

theorem SettledLines.append (h : SettledLines cs) (h' : SettledLines cs') :
    SettledLines (cs ++ cs') := by
  refine ⟨h.whole.append h'.whole, fun p t heq => ?_⟩
  rcases List.append_eq_append_iff.mp heq with ⟨a, -, hcs'⟩ | ⟨a, hcs, ht⟩
  · exact h'.behind a t hcs'
  · cases a with
    | nil => exact h'.behind [] t ht.symm
    | cons c a =>
      obtain ⟨rfl, rfl⟩ := List.cons.inj ht
      exact (h.behind p a hcs).append h'.whole

theorem settled_of_no_newline (h : Settles cs) (hnewline : '\n' ∉ cs) : SettledLines cs :=
  ⟨h, fun p _ heq => absurd (heq ▸ List.mem_append_right p List.mem_cons_self) hnewline⟩

theorem eq_nil_of_last {p t : List Char} (h : [ch] = p ++ '\n' :: t) : t = [] := by
  have hlength := congrArg List.length h
  simp only [List.length_append, List.length_cons, List.length_nil] at hlength
  exact List.eq_nil_of_length_eq_zero (by omega)

theorem settled_nil : SettledLines [] := settled_of_no_newline settles_nil List.not_mem_nil

theorem settled_blank (h : isSpace ch = true) : SettledLines [ch] := by
  refine ⟨fun cur => ⟨flush cur, [], fun post => tokensFrom_blank h⟩, fun p t heq => ?_⟩
  rw [eq_nil_of_last heq]
  exact settles_nil

theorem settled_paren (h : ch = '(' ∨ ch = ')') : SettledLines [ch] := by
  have hsettles : Settles [ch] := by
    refine fun cur => ⟨flush cur ++ [String.ofList [ch]], [], fun post => ?_⟩
    rw [List.singleton_append, tokensFrom_paren h, List.append_assoc]
    rfl
  exact settled_of_no_newline hsettles (by rcases h with rfl | rfl <;> decide)

theorem settled_comment (hline : '\n' ∉ line) : SettledLines (';' :: line ++ ['\n']) := by
  have hsettles : Settles (';' :: line ++ ['\n']) := by
    refine fun cur => ⟨flush cur, [], fun post => ?_⟩
    have hcomment := tokensFrom_line_comment cur hline (.inr ⟨post, rfl⟩)
    rw [List.append_assoc, List.singleton_append, hcomment, tokensFrom_blank (by decide)]
  refine ⟨hsettles, fun p t heq => ?_⟩
  rcases List.append_eq_append_iff.mp heq with ⟨a, -, ha⟩ | ⟨a, hcs, ht⟩
  · rw [eq_nil_of_last ha]
    exact settles_nil
  · cases a with
    | nil =>
      rw [(List.cons.inj ht).2]
      exact settles_nil
    | cons c a =>
      obtain ⟨rfl, -⟩ := List.cons.inj ht
      have hmem : '\n' ∈ ';' :: line := hcs ▸ List.mem_append_right p List.mem_cons_self
      rcases List.mem_cons.mp hmem with h | h
      · exact absurd h (by decide)
      · exact absurd h hline

/-- The body of a string on one line. -/
def lineBody (s : List Char) : Prop := '\n' ∉ s

theorem SourceText.settled {kind : SourceKind} (h : SourceText lineBody kind cs)
    (hquote : '\'' ∉ cs) : SettledLines cs := by
  induction h with
  | @word w hne hw =>
    have hsettles : Settles w := by
      intro cur
      refine ⟨[], w.reverse ++ cur, fun post => ?_⟩
      clear hquote hne
      induction w generalizing cur with
      | nil => rfl
      | cons ch w ih =>
        obtain ⟨hstop, hmark⟩ := hw ch List.mem_cons_self
        rw [List.cons_append, tokensFrom_char hstop hmark,
          ih (fun c hc => hw c (List.mem_cons_of_mem _ hc)), List.reverse_cons, List.append_assoc]
        rfl
    exact settled_of_no_newline hsettles fun hmem => absurd (hw '\n' hmem).1 (by decide)
  | @string s hstring hbody =>
    have hsettles : Settles ('"' :: s ++ ['"']) := by
      refine fun cur => ⟨flush cur ++ [String.ofList ('"' :: s ++ ['"'])], [], fun post => ?_⟩
      rw [List.append_assoc, List.append_assoc]
      exact tokensFrom_string hstring
    refine settled_of_no_newline hsettles fun hmem => ?_
    simp only [List.cons_append, List.mem_cons, List.mem_append, List.not_mem_nil, or_false] at hmem
    rcases hmem with h | h | h
    · exact absurd h (by decide)
    · exact hbody h
    · exact absurd h (by decide)
  | quote _ _ => exact absurd List.mem_cons_self hquote
  | list _ ih =>
    have hcs := ih fun h => hquote (List.mem_append_left _ (List.mem_cons_of_mem _ h))
    exact ((settled_paren (.inl rfl)).append hcs).append (settled_paren (.inr rfl))
  | nil => exact settled_nil
  | blank hch _ ih =>
    have hcs := ih fun h => hquote (List.mem_cons_of_mem _ h)
    exact (settled_blank hch).append hcs
  | @comment line cs hline _ ih =>
    have hcs := ih fun h => hquote (List.mem_append_right _ (List.mem_cons_of_mem _ h))
    have happend := (settled_comment hline).append hcs
    rwa [List.append_assoc] at happend
  | item _ _ ihe ihcs =>
    exact (ihe fun h => hquote (List.mem_append_left _ h)).append
      (ihcs fun h => hquote (List.mem_append_right _ h))

/-- Only a character of a word goes on with the token under way. -/
theorem tokensFrom_flush (cur : List Char) (h : ¬plainChar ch) :
    tokensFrom cur (ch :: cs) = flush cur ++ tokensFrom [] (ch :: cs) := by
  by_cases hspace : isSpace ch = true
  · rw [tokensFrom_blank hspace, tokensFrom_blank hspace]
    rfl
  by_cases hcomment : ch = ';'
  · subst hcomment
    rw [tokensFrom_comment, tokensFrom_comment]
    rfl
  by_cases hparen : ch = '(' ∨ ch = ')'
  · rw [tokensFrom_paren hparen, tokensFrom_paren hparen]
    rfl
  by_cases hstring : ch = '"'
  · subst hstring
    rw [tokensFrom_at (by decide) (by decide), tokensFrom_at (by decide) (by decide), tokenizeAt,
      tokenizeAt]
    rfl
  by_cases hmark : ch = '\''
  · subst hmark
    by_cases hquotes : quotes cs = true
    · by_cases hlist : ∃ more, cs = '(' :: more
      · obtain ⟨more, rfl⟩ := hlist
        rw [tokensFrom_quoted_list, tokensFrom_quoted_list, List.append_assoc, List.append_assoc]
        rfl
      · have hlist : ∀ more, cs ≠ '(' :: more := fun more heq => hlist ⟨more, heq⟩
        rw [tokensFrom_quoted_atom hquotes hlist, tokensFrom_quoted_atom hquotes hlist]
        rfl
    · have hquotes := Bool.eq_false_of_not_eq_true hquotes
      rw [tokensFrom_quote_alone hquotes, tokensFrom_quote_alone hquotes]
      rfl
  · obtain ⟨hopen, hclose⟩ := not_or.mp hparen
    exact absurd ⟨by simp [atomStop, hspace, hopen, hclose, hcomment, hstring], hmark⟩ h

theorem length_tokensFrom_congr {cur' : List Char} (hcur : cur ≠ []) (hcur' : cur' ≠ []) :
    (tokensFrom cur cs).length = (tokensFrom cur' cs).length := by
  have hflush : (flush cur).length = (flush cur').length := by
    rw [flush, flush, if_neg hcur, if_neg hcur']
    rfl
  induction cs generalizing cur cur' with
  | nil => rw [tokensFrom_nil, tokensFrom_nil, hflush]
  | cons ch cs ih =>
    by_cases hplain : plainChar ch
    · rw [tokensFrom_char hplain.1 hplain.2, tokensFrom_char hplain.1 hplain.2]
      exact ih (List.cons_ne_nil _ _) (List.cons_ne_nil _ _) rfl
    · rw [tokensFrom_flush cur hplain, tokensFrom_flush cur' hplain, List.length_append,
        List.length_append, hflush]

theorem length_tokensFrom_le (cur cs : List Char) :
    (tokensFrom cur cs).length ≤ (flush cur).length + (tokensFrom [] cs).length := by
  cases cs with
  | nil =>
    rw [tokensFrom_nil]
    exact Nat.le_add_right _ _
  | cons ch cs =>
    by_cases hplain : plainChar ch
    · rw [tokensFrom_char hplain.1 hplain.2, tokensFrom_char hplain.1 hplain.2,
        length_tokensFrom_congr (List.cons_ne_nil ch cur) (List.cons_ne_nil ch [])]
      exact Nat.le_add_left _ _
    · rw [tokensFrom_flush cur hplain, List.length_append]

/-- The text behind a word does not go on with it. -/
def WordEnds : List Char → Prop
  | [] => True
  | ch :: _ => ¬plainChar ch

theorem tokensFrom_blanks {gap : List Char} (hgap : ∀ ch ∈ gap, isSpace ch = true)
    (cs : List Char) : tokensFrom [] (gap ++ cs) = tokensFrom [] cs := by
  induction gap with
  | nil => rfl
  | cons ch gap ih =>
    rw [List.cons_append, tokensFrom_blank (hgap ch List.mem_cons_self),
      ih fun c hc => hgap c (List.mem_cons_of_mem _ hc)]
    rfl

theorem tokensFrom_append_word {w : List Char} (hw : ∀ ch ∈ w, plainChar ch)
    (cur post : List Char) : tokensFrom cur (w ++ post) = tokensFrom (w.reverse ++ cur) post := by
  induction w generalizing cur with
  | nil => rfl
  | cons ch w ih =>
    obtain ⟨hstop, hmark⟩ := hw ch List.mem_cons_self
    rw [List.cons_append, tokensFrom_char hstop hmark,
      ih (fun c hc => hw c (List.mem_cons_of_mem _ hc)), List.reverse_cons, List.append_assoc]
    rfl

theorem length_flush (h : cur ≠ []) : (flush cur).length = 1 := by
  rw [flush, if_neg h]
  rfl

/-- A closing parenthesis is one token more than the text behind it has. -/
theorem length_lt_close (h : Settles cs) (post : List Char) :
    (tokensFrom [] post).length < (tokensFrom [] (cs ++ [')'] ++ post)).length := by
  obtain ⟨out, cur', hout⟩ := h []
  have hclose := hout (')' :: post)
  rw [tokensFrom_paren (.inr rfl)] at hclose
  rw [List.append_assoc, List.singleton_append, hclose]
  simp only [List.length_append, List.length_cons]
  omega

/-- An expression is at least one token more than the text behind it has. -/
theorem SourceText.length_lt {e post : List Char} (h : SourceText lineBody .expr e)
    (hquote : '\'' ∉ e) (hpost : (∀ ch ∈ e, plainChar ch) → WordEnds post) :
    (tokensFrom [] post).length < (tokensFrom [] (e ++ post)).length := by
  cases h with
  | word hne hw =>
    have hrev : e.reverse ++ [] ≠ [] := by
      rw [List.append_nil]
      exact List.reverse_ne_nil_iff.mpr hne
    rw [tokensFrom_append_word hw]
    rcases post with - | ⟨ch, post⟩
    · rw [tokensFrom_nil, tokensFrom_nil, length_flush hrev]
      exact Nat.one_pos
    · rw [tokensFrom_flush (e.reverse ++ []) (hpost hw), List.length_append, length_flush hrev]
      omega
  | string hstring _ =>
    rw [List.append_assoc, List.singleton_append, tokensFrom_string hstring]
    exact Nat.lt_succ_self _
  | quote _ => exact absurd List.mem_cons_self hquote
  | list hcs =>
    have hinner := hcs.settled fun h => hquote (List.mem_append_left _ (List.mem_cons_of_mem _ h))
    exact length_lt_close ((settled_paren (.inl rfl)).append hinner).whole post

/-- So is what stands behind a line end in or before it. -/
theorem SourceText.length_lt_behind {gap e post p t : List Char}
    (h : SourceText lineBody .expr e) (hgap : ∀ ch ∈ gap, isSpace ch = true) (hquote : '\'' ∉ e)
    (hpost : (∀ ch ∈ e, plainChar ch) → WordEnds post) (htext : gap ++ e = p ++ '\n' :: t) :
    (tokensFrom [] post).length < (tokensFrom [] (t ++ post)).length := by
  have hinside : ∀ p', e = p' ++ '\n' :: t →
      (tokensFrom [] post).length < (tokensFrom [] (t ++ post)).length := by
    intro p' he
    have hmem : '\n' ∈ e := he ▸ List.mem_append_right p' List.mem_cons_self
    cases h with
    | word _ hw => exact absurd (hw '\n' hmem).1 (by decide)
    | string _ hbody =>
      simp only [List.cons_append, List.mem_cons, List.mem_append, List.not_mem_nil,
        or_false] at hmem
      rcases hmem with h | h | h
      · exact absurd h (by decide)
      · exact absurd h hbody
      · exact absurd h (by decide)
    | quote _ => exact absurd List.mem_cons_self hquote
    | @list cs hcs =>
      have hinner := hcs.settled fun h => hquote (List.mem_append_left _ (List.mem_cons_of_mem _ h))
      have hopen : SettledLines ('(' :: cs) := (settled_paren (.inl rfl)).append hinner
      rcases List.append_eq_append_iff.mp he with ⟨a, -, ha⟩ | ⟨a, hcs', ht⟩
      · have hmem : '\n' ∈ [')'] := ha.symm ▸ List.mem_append_right a List.mem_cons_self
        exact absurd hmem (by decide)
      · cases a with
        | nil => exact absurd (List.cons.inj ht).1 (by decide)
        | cons c a =>
          obtain ⟨rfl, rfl⟩ := List.cons.inj ht
          exact length_lt_close (hopen.behind p' a hcs') post
  rcases List.append_eq_append_iff.mp htext with ⟨a, -, ha⟩ | ⟨a, hgap', ha⟩
  · exact hinside a ha
  · cases a with
    | nil => exact hinside [] ha.symm
    | cons c a =>
      obtain ⟨rfl, ht⟩ := List.cons.inj ha
      have ha' : ∀ ch ∈ a, isSpace ch = true := fun ch hch =>
        hgap ch (hgap' ▸ List.mem_append_right p (List.mem_cons_of_mem _ hch))
      have ht' : t ++ post = a ++ (e ++ post) := by
        rw [ht, ← List.append_assoc]
        rfl
      rw [ht', tokensFrom_blanks ha']
      exact h.length_lt hquote hpost

end SettledLines

section Comments

open Python

variable {cur gap e post pre : List Char} {out : List String}

/-- The tokens are those of the text without `;;` and the expression behind it. -/
def SkipsExpression (pre gap e post : List Char) : Prop :=
  tokenize (String.ofList (pre ++ ';' :: ';' :: gap ++ e ++ post)) =
    tokenize (String.ofList (pre ++ post))

theorem tokenize_pre (hpre : StandsAfter pre out cur) (cs : List Char) :
    tokenize (String.ofList (pre ++ cs)) = out ++ tokensFrom cur cs := by
  rw [tokenize_eq, String.toList_ofList, hpre]

theorem tokenize_line_comment (hpre : StandsAfter pre out cur) {line rest : List Char}
    (hline : '\n' ∉ line) (hrest : rest = [] ∨ ∃ more, rest = '\n' :: more) :
    tokenize (String.ofList (pre ++ ';' :: line ++ rest)) =
      tokenize (String.ofList (pre ++ rest)) := by
  rw [List.append_assoc, tokenize_pre hpre, tokenize_pre hpre,
    tokensFrom_line_comment cur hline hrest]

/-- `;;` starts a comment that ends with its line, like `;`. -/
theorem tokenize_expression_comment (hpre : StandsAfter pre out cur) (cs : List Char) :
    tokenize (String.ofList (pre ++ ';' :: ';' :: cs)) =
      out ++ (flush cur ++ tokensFrom [] (skipLine cs)) := by
  rw [tokenize_pre hpre, tokensFrom_comment]
  rfl

theorem skipsExpression_of_idle (hpre : StandsAfter pre out cur) (hnewline : '\n' ∉ gap ++ e)
    (hidle : IdleLine (firstLine post)) : SkipsExpression pre gap e post := by
  have htext : pre ++ ';' :: ';' :: gap ++ e ++ post = pre ++ ';' :: ';' :: (gap ++ e ++ post) := by
    simp
  rw [SkipsExpression, htext, tokenize_expression_comment hpre, skipLine_append hnewline,
    tokenize_pre hpre, tokensFrom_of_idle hidle]

theorem skipsExpression_iff_of_line (hpre : StandsAfter pre out cur) (hnewline : '\n' ∉ gap ++ e)
    (hpost : '"' ∉ firstLine post ∧ '\'' ∉ firstLine post) :
    SkipsExpression pre gap e post ↔ IdleLine (firstLine post) := by
  refine ⟨fun hsame => ?_, skipsExpression_of_idle hpre hnewline⟩
  by_contra hidle
  have htext : pre ++ ';' :: ';' :: gap ++ e ++ post = pre ++ ';' :: ';' :: (gap ++ e ++ post) := by
    simp
  have hsplit : tokensFrom cur post =
      tokensFrom cur (firstLine post) ++ tokensFrom [] (skipLine post) := by
    have hline := tokensFrom_line cur hpost (newline_not_mem_firstLine post) (skipLine_cases post)
    rwa [firstLine_append_skipLine] at hline
  rw [SkipsExpression, htext, tokenize_expression_comment hpre, skipLine_append hnewline,
    tokenize_pre hpre, hsplit] at hsame
  have hflush := List.append_cancel_right (List.append_cancel_left hsame)
  have hlt := (le_tokenChars cur hpost).2 hidle
  rw [← hflush, tokenChars_flush] at hlt
  exact Nat.lt_irrefl _ hlt

/-- The rest of an expression behind a line end is not removed. -/
theorem not_skipsExpression_of_newline (hpre : StandsAfter pre out cur)
    (he : SourceText lineBody .expr e) (hgap : ∀ ch ∈ gap, isSpace ch = true) (hquote : '\'' ∉ e)
    (hpost : (∀ ch ∈ e, plainChar ch) → WordEnds post) (hnewline : '\n' ∈ gap ++ e) :
    ¬SkipsExpression pre gap e post := by
  intro hsame
  obtain ⟨p, t, htext, hp⟩ := List.eq_append_cons_of_mem hnewline
  have hwhole : pre ++ ';' :: ';' :: gap ++ e ++ post =
      pre ++ ';' :: ';' :: (p ++ '\n' :: (t ++ post)) := by
    rw [List.append_assoc, List.append_assoc, List.cons_append, List.cons_append,
      ← List.append_assoc gap, htext]
    simp
  rw [SkipsExpression, hwhole, tokenize_expression_comment hpre, skipLine_append hp,
    tokenize_pre hpre] at hsame
  have htokens := congrArg List.length (List.append_cancel_left hsame)
  have hbehind := he.length_lt_behind hgap hquote hpost htext
  have hle := length_tokensFrom_le cur post
  have hskip : tokensFrom [] (skipLine ('\n' :: (t ++ post))) = tokensFrom [] (t ++ post) :=
    tokensFrom_blank (by decide)
  rw [hskip, List.length_append] at htokens
  omega

end Comments

end Astreum

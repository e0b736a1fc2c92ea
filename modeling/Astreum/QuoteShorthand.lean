import Astreum.SourceText
import Astreum.ReaderErrors
import Astreum.QuotedAtoms

namespace Astreum

section Skipper

open Python

variable {cs rest line : List Char} {ch : Char} {depth : Nat}

/-- Enough fuel is enough for the skipper. -/
theorem takeParens_congr (n m depth : Nat) (cs : List Char) (hn : cs.length ≤ n)
    (hm : cs.length ≤ m) : takeParens n depth cs = takeParens m depth cs := by
  induction n generalizing m depth cs with
  | zero =>
    rw [List.eq_nil_of_length_eq_zero (Nat.le_zero.mp hn)]
    cases m <;> rfl
  | succ n ih =>
    cases cs with
    | nil => cases m <;> rfl
    | cons ch cs =>
      rw [List.length_cons] at hn hm
      obtain ⟨m, rfl⟩ : ∃ m', m = m' + 1 := ⟨m - 1, by omega⟩
      have hline : (skipLine cs).length ≤ cs.length :=
        (List.dropWhile_suffix _).sublist.length_le
      rw [takeParens, takeParens]
      simp only [fun depth => ih m depth cs (by omega) (by omega),
        fun depth => ih m depth (skipLine cs) (by omega) (by omega)]

/-- What `skip_expression` takes from an open list of a depth, and what it leaves. -/
def parensFrom (depth : Nat) (cs : List Char) : List Char × List Char :=
  takeParens cs.length depth cs

theorem parensFrom_plain (h : ch ∉ ['(', ')', ';']) :
    parensFrom depth (ch :: cs) = (ch :: (parensFrom depth cs).1, (parensFrom depth cs).2) := by
  simp only [List.mem_cons, List.not_mem_nil, or_false, not_or] at h
  obtain ⟨hopen, hclose, hcomment⟩ := h
  rw [parensFrom, List.length_cons, takeParens, if_neg (fun h => hclose h.1), if_neg hcomment]
  simp only [if_neg hopen, if_neg hclose]
  rfl

theorem parensFrom_open :
    parensFrom depth ('(' :: cs) =
      ('(' :: (parensFrom (depth + 1) cs).1, (parensFrom (depth + 1) cs).2) := by
  rw [parensFrom, List.length_cons, takeParens, if_neg (fun h => absurd h.1 (by decide)),
    if_neg (by decide)]
  rfl

theorem parensFrom_close (hdepth : 1 < depth) :
    parensFrom depth (')' :: cs) =
      (')' :: (parensFrom (depth - 1) cs).1, (parensFrom (depth - 1) cs).2) := by
  rw [parensFrom, List.length_cons, takeParens, if_neg (fun h => absurd h.2 (by omega)),
    if_neg (by decide)]
  rfl

theorem parensFrom_end : parensFrom 1 (')' :: cs) = ([')'], cs) := by
  rw [parensFrom, List.length_cons, takeParens, if_pos ⟨rfl, rfl⟩]

theorem parensFrom_comment (hline : '\n' ∉ line) :
    parensFrom depth (';' :: line ++ '\n' :: cs) =
      (';' :: line ++ '\n' :: (parensFrom depth cs).1, (parensFrom depth cs).2) := by
  have htake : (line ++ '\n' :: cs).takeWhile (· != '\n') = line := by
    rw [List.takeWhile_append_of_pos]
    · simp
    · intro ch hch
      rw [bne_iff_ne]
      rintro rfl
      exact hline hch
  have hskip : skipLine (line ++ '\n' :: cs) = '\n' :: cs := by
    rw [skipLine_append hline]
    rfl
  have hnewline : parensFrom depth ('\n' :: cs) =
      ('\n' :: (parensFrom depth cs).1, (parensFrom depth cs).2) := parensFrom_plain (by decide)
  rw [List.cons_append, parensFrom, List.length_cons, takeParens,
    if_neg (fun h => absurd h.1 (by decide)), if_pos rfl]
  simp only [htake, hskip]
  rw [takeParens_congr _ ('\n' :: cs).length _ _ (by simp) (Nat.le_refl _)]
  change (';' :: line ++ (parensFrom depth ('\n' :: cs)).1, (parensFrom depth ('\n' :: cs)).2) = _
  rw [hnewline]

/-- A part of the text that the skipper passes over at any depth inside a list. -/
def PassedOver (cs : List Char) : Prop :=
  ∀ depth rest, 0 < depth → parensFrom depth (cs ++ rest) =
    (cs ++ (parensFrom depth rest).1, (parensFrom depth rest).2)

theorem passedOver_nil : PassedOver [] := fun _ _ _ => rfl

theorem PassedOver.append {cs' : List Char} (h : PassedOver cs) (h' : PassedOver cs') :
    PassedOver (cs ++ cs') := by
  intro depth rest hdepth
  rw [List.append_assoc, h depth _ hdepth, h' depth _ hdepth, List.append_assoc]

theorem passedOver_plain (h : ∀ ch ∈ cs, ch ∉ ['(', ')', ';']) : PassedOver cs := by
  induction cs with
  | nil => exact passedOver_nil
  | cons ch cs ih =>
    intro depth rest hdepth
    have hrest := ih (fun c hc => h c (List.mem_cons_of_mem _ hc)) depth rest hdepth
    rw [List.cons_append, parensFrom_plain (h ch List.mem_cons_self), hrest]
    rfl

theorem passedOver_list (h : PassedOver cs) : PassedOver ('(' :: cs ++ [')']) := by
  intro depth rest hdepth
  have hcs := h (depth + 1) (')' :: rest) (Nat.succ_pos _)
  have htext : '(' :: cs ++ [')'] ++ rest = '(' :: (cs ++ ')' :: rest) := by simp
  rw [htext, parensFrom_open, hcs, parensFrom_close (Nat.succ_lt_succ hdepth)]
  simp

theorem parensFrom_list (h : PassedOver cs) (rest : List Char) :
    parensFrom 0 ('(' :: cs ++ [')'] ++ rest) = ('(' :: cs ++ [')'], rest) := by
  have htext : '(' :: cs ++ [')'] ++ rest = '(' :: (cs ++ ')' :: rest) := by simp
  rw [htext, parensFrom_open, h 1 _ Nat.one_pos, parensFrom_end]
  rfl

/-- A string in which the skipper sees nothing: it does not know strings. -/
def plainBody (s : List Char) : Prop := ∀ ch ∈ s, ch ∉ ['(', ')', ';']

theorem SourceText.passedOver {kind : SourceKind} (h : SourceText plainBody kind cs) :
    PassedOver cs := by
  induction h with
  | word _ hw =>
    refine passedOver_plain fun ch hch hmem => (hw ch hch).not_mem ?_
    simp only [List.mem_cons, List.not_mem_nil, or_false] at hmem ⊢
    tauto
  | string _ hbody =>
    refine passedOver_plain fun ch hch => ?_
    rw [List.cons_append, List.mem_cons, List.mem_append, List.mem_singleton] at hch
    rcases hch with rfl | hch | rfl
    · decide
    · exact hbody ch hch
    · decide
  | quote _ ih =>
    have hmark : PassedOver ['\''] :=
      passedOver_plain (List.forall_mem_singleton.mpr (by decide))
    exact hmark.append ih
  | list _ ih => exact passedOver_list ih
  | nil => exact passedOver_nil
  | @blank ch cs hch _ ih =>
    have hblank : PassedOver [ch] := by
      refine passedOver_plain fun c hc hmem => ?_
      rw [List.mem_singleton.mp hc] at hmem
      simp only [List.mem_cons, List.not_mem_nil, or_false] at hmem
      rcases hmem with rfl | rfl | rfl <;> exact absurd hch (by decide)
    exact hblank.append ih
  | @comment line cs hline _ ih =>
    intro depth rest hdepth
    rw [List.append_assoc, List.cons_append, List.cons_append]
    have hcomment : parensFrom depth (';' :: line ++ '\n' :: (cs ++ rest)) = _ :=
      parensFrom_comment hline
    rw [List.cons_append] at hcomment
    rw [hcomment, ih depth rest hdepth]
    simp
  | item _ _ ihe ihcs => exact ihe.append ihcs

end Skipper

section Frame

variable {n m : Nat} {toks rest : List String} {e : Expr}

/-- What is read does not depend on the tokens behind it, nor on more fuel. -/
theorem parse_frame (n : Nat) :
    (∀ m toks e rest more, parseOne n toks = .ok (e, rest) → n ≤ m →
      parseOne m (toks ++ more) = .ok (e, rest ++ more)) ∧
    ∀ m items toks e rest more, parseItems n items toks = .ok (e, rest) → n ≤ m →
      parseItems m items (toks ++ more) = .ok (e, rest ++ more) := by
  induction n with
  | zero => exact ⟨fun _ _ _ _ _ h => (nomatch h), fun _ _ _ _ _ _ h => (nomatch h)⟩
  | succ n ih =>
    refine ⟨fun m toks e rest more hread hm => ?_, fun m items toks e rest more hread hm => ?_⟩
    · obtain ⟨m, rfl⟩ : ∃ m', m = m' + 1 := ⟨m - 1, by omega⟩
      have hm' : n ≤ m := Nat.le_of_succ_le_succ hm
      rcases toks with - | ⟨tok, toks⟩
      · cases hread
      rw [parseOne] at hread
      rw [List.cons_append, parseOne]
      by_cases hopen : tok = "("
      · rw [if_pos hopen] at hread ⊢
        exact ih.2 m [] toks e rest more hread hm'
      rw [if_neg hopen] at hread ⊢
      by_cases hclose : tok = ")"
      · rw [if_pos hclose] at hread
        cases hread
      rw [if_neg hclose] at hread ⊢
      obtain ⟨e', hatom, hread⟩ := except_bind_eq_ok.mp hread
      cases hread
      rw [hatom]
      rfl
    · obtain ⟨m, rfl⟩ : ∃ m', m = m' + 1 := ⟨m - 1, by omega⟩
      have hm' : n ≤ m := Nat.le_of_succ_le_succ hm
      rcases toks with - | ⟨tok, toks⟩
      · cases hread
      rw [parseItems] at hread
      rw [List.cons_append, parseItems]
      by_cases hclose : tok = ")"
      · rw [if_pos hclose] at hread ⊢
        cases hread
        rfl
      rw [if_neg hclose] at hread ⊢
      by_cases hdot : tok = "."
      · rw [if_pos hdot] at hread ⊢
        by_cases hnil : items = []
        · rw [if_pos hnil] at hread
          cases hread
        rw [if_neg hnil] at hread ⊢
        obtain ⟨⟨tail, toks'⟩, htail, hread⟩ := except_bind_eq_ok.mp hread
        rw [ih.1 m toks tail toks' more htail hm', py_ok_bind]
        dsimp only at hread
        split at hread
        · cases hread
          rfl
        · cases hread
      · rw [if_neg hdot] at hread ⊢
        obtain ⟨⟨item, toks'⟩, hitem, hread⟩ := except_bind_eq_ok.mp hread
        have hitem' := ih.1 m (tok :: toks) item toks' more hitem hm'
        rw [List.cons_append] at hitem'
        rw [hitem', py_ok_bind]
        exact ih.2 m (item :: items) toks' e rest more hread hm'

/-- The tokens of a quoted expression are read as the list of the quote symbol and the
expression. -/
theorem parse_quoted {more : List String} (hread : parse toks = .ok (e, []))
    (hdot : ∀ ts, toks ≠ "." :: ts) :
    parse ("(" :: "'" :: toks ++ ")" :: more) = .ok (link (.symbol "'") (link e .nil), more) := by
  obtain ⟨k, hk⟩ : ∃ k, 2 * ("(" :: "'" :: toks ++ ")" :: more).length + 1 = k + 6 ∧
      2 * toks.length + 1 ≤ k + 3 := by
    refine ⟨2 * ("(" :: "'" :: toks ++ ")" :: more).length - 5, ?_⟩
    simp only [List.length_cons, List.length_append]
    omega
  have hitem := (parse_frame _).1 (k + 3) toks e [] (")" :: more) hread hk.2
  rw [parse, hk.1, List.cons_append, List.cons_append, parseOne, if_pos rfl, parseItems,
    if_neg (by decide), if_neg (by decide), parseOne, if_neg (by decide), if_neg (by decide)]
  have hsymbol : parseAtom "'" = .ok (.symbol "'") := rfl
  rw [hsymbol]
  change parseItems (k + 4) [.symbol "'"] (toks ++ ")" :: more) = _
  rcases toks with - | ⟨tok, toks⟩
  · cases hread
  have hclose : tok ≠ ")" := by
    rintro rfl
    cases hread
  have hdot' : tok ≠ "." := by
    rintro rfl
    exact hdot toks rfl
  rw [List.cons_append] at hitem ⊢
  rw [parseItems, if_neg hclose, if_neg hdot', hitem, py_ok_bind]
  rfl

end Frame

section Quoted

open Python

variable {cs w e rest more : List Char} {ch : Char}

theorem tokenize_ofList (cs : List Char) : tokenize (String.ofList cs) = tokensFrom [] cs := by
  rw [tokenize_eq, String.toList_ofList]

theorem tokensFrom_word (hw : ∀ ch ∈ w, plainChar ch) (cur : List Char) :
    tokensFrom cur w = flush (w.reverse ++ cur) := by
  induction w generalizing cur with
  | nil => exact tokensFrom_nil
  | cons ch w ih =>
    obtain ⟨hstop, hquote⟩ := hw ch List.mem_cons_self
    rw [tokensFrom_char hstop hquote, ih fun c hc => hw c (List.mem_cons_of_mem _ hc),
      List.reverse_cons, List.append_assoc]
    rfl

/-- `#;` ends a quoted atom. -/
def HashComment (w rest : List Char) : Prop :=
  w.getLast? = some '#' ∧ ∃ more, rest = ';' :: more

theorem takeAtom_append_word (hw : ∀ ch ∈ w, atomStop ch = false)
    (hhash : ¬HashComment w rest) :
    takeAtom (w ++ rest) = (w ++ (takeAtom rest).1, (takeAtom rest).2) := by
  induction w with
  | nil => rfl
  | cons ch w ih =>
    have hch := hw ch List.mem_cons_self
    have hw' : ∀ c ∈ w, atomStop c = false := fun c hc => hw c (List.mem_cons_of_mem _ hc)
    have hhash' : ¬HashComment w rest := by
      rintro ⟨hlast, hrest⟩
      have hlast' : (ch :: w).getLast? = some '#' := by
        cases w with
        | nil => cases hlast
        | cons c w => rwa [List.getLast?_cons_cons]
      exact hhash ⟨hlast', hrest⟩
    rw [List.cons_append, takeAtom]
    · rw [if_neg (Bool.eq_false_iff.mp hch), ih hw' hhash']
      rfl
    · rintro cs rfl heq
      cases w with
      | nil => exact hhash ⟨rfl, cs, heq⟩
      | cons c w =>
        have hc := hw' c List.mem_cons_self
        rw [(List.cons.inj heq).1] at hc
        exact absurd hc (by decide)

theorem takeAtom_stop (hstop : atomStop ch = true) : takeAtom (ch :: cs) = ([], ch :: cs) := by
  rw [takeAtom]
  · rw [if_pos hstop]
  · rintro cs' rfl _
    exact absurd hstop (by decide)

theorem quotes_cons_word (hw : ∀ ch ∈ w, plainChar ch) (hne : w ≠ [])
    (hhash : ¬HashComment w rest) : quotes (w ++ rest) = true := by
  rcases w with - | ⟨ch, w⟩
  · exact absurd rfl hne
  refine quotes_word (hw ch List.mem_cons_self).1 fun cs hch heq => ?_
  subst hch
  cases w with
  | nil => exact hhash ⟨rfl, cs, heq⟩
  | cons c w =>
    have hc := (hw c (List.mem_cons_of_mem _ List.mem_cons_self)).1
    rw [(List.cons.inj heq).1] at hc
    exact absurd hc (by decide)

theorem ne_list_of_word (hw : ∀ ch ∈ w, plainChar ch) (hne : w ≠ []) (more : List Char) :
    w ++ rest ≠ '(' :: more := by
  rcases w with - | ⟨ch, w⟩
  · exact absurd rfl hne
  · intro heq
    have hch := (hw ch List.mem_cons_self).1
    rw [(List.cons.inj heq).1] at hch
    exact absurd hch (by decide)

/-- `'` before an expression is read as the list of the quote symbol and the expression. -/
structure ReadsQuoted (e rest : List Char) : Prop where
  tokens : tokenize (String.ofList ('\'' :: e ++ rest)) =
    "(" :: "'" :: tokenize (String.ofList e) ++ ")" :: tokenize (String.ofList rest)
  parsed : ∀ x, parse (tokenize (String.ofList e)) = .ok (x, []) →
    parse (tokenize (String.ofList ('\'' :: e ++ rest))) =
      .ok (link (.symbol "'") (link x .nil), tokenize (String.ofList rest))

theorem readsQuoted_of_tokens
    (htokens : tokenize (String.ofList ('\'' :: e ++ rest)) =
      "(" :: "'" :: tokenize (String.ofList e) ++ ")" :: tokenize (String.ofList rest))
    (hdot : ∀ ts, tokenize (String.ofList e) ≠ "." :: ts) : ReadsQuoted e rest := by
  refine ⟨htokens, fun x hread => ?_⟩
  rw [htokens]
  exact parse_quoted hread hdot

/-- A word that the quote mark takes as it is. -/
structure WordQuoted (w rest : List Char) : Prop where
  word : ∀ ch ∈ w, plainChar ch
  not_dot : w ≠ ['.']
  not_quote : ∀ more, rest ≠ '\'' :: more
  not_hash : ¬HashComment w rest

theorem tokenize_word (hw : ∀ ch ∈ w, plainChar ch) (hne : w ≠ []) :
    tokenize (String.ofList w) = [String.ofList w] := by
  rw [tokenize_ofList, tokensFrom_word hw, List.append_nil, flush,
    if_neg (List.reverse_ne_nil_iff.mpr hne), List.reverse_reverse]

theorem WordQuoted.reads (h : WordQuoted w rest) (hne : w ≠ []) (hrest : WordEnds rest) :
    ReadsQuoted w rest := by
  have hatom : takeAtom (w ++ rest) = (w, rest) := by
    rw [takeAtom_append_word (fun ch hch => (h.word ch hch).1) h.not_hash]
    rcases rest with - | ⟨ch, more⟩
    · rw [takeAtom, List.append_nil]
    · have hstop : atomStop ch = true := by
        by_contra hstop
        refine hrest ⟨Bool.eq_false_iff.mpr hstop, ?_⟩
        rintro rfl
        exact h.not_quote more rfl
      rw [takeAtom_stop hstop, List.append_nil]
  refine readsQuoted_of_tokens ?_ fun ts hts => ?_
  · rw [tokenize_word h.word hne, tokenize_ofList, tokenize_ofList, List.cons_append,
      tokensFrom_quoted_atom (quotes_cons_word h.word hne h.not_hash)
        (fun more => ne_list_of_word h.word hne more), hatom]
    rfl
  · rw [tokenize_word h.word hne] at hts
    have hdot := congrArg String.toList (List.cons.inj hts).1
    rw [String.toList_ofList] at hdot
    exact h.not_dot hdot

/-- Where the atom that is taken is another one, the word is not read. -/
theorem not_readsQuoted_of_atom (hw : ∀ ch ∈ w, plainChar ch) (hne : w ≠ [])
    (hquotes : quotes (w ++ rest) = true) (hatom : (takeAtom (w ++ rest)).1 ≠ w) :
    ¬ReadsQuoted w rest := by
  intro hreads
  have htokens := hreads.tokens
  rw [tokenize_word hw hne, tokenize_ofList, tokenize_ofList, List.cons_append,
    tokensFrom_quoted_atom hquotes (fun more => ne_list_of_word hw hne more)] at htokens
  have hthird := (List.cons.inj (List.cons.inj (List.cons.inj htokens).2).2).1
  have hsame := congrArg String.toList hthird
  rw [String.toList_ofList, String.toList_ofList] at hsame
  exact hatom hsame

theorem not_readsQuoted_of_not_quotes (hquotes : quotes (e ++ rest) = false) :
    ¬ReadsQuoted e rest := by
  intro hreads
  have htokens := hreads.tokens
  rw [tokenize_ofList, List.cons_append, tokensFrom_quote_alone hquotes] at htokens
  exact absurd (List.cons.inj htokens).1 (by decide)

/-- A quoted dot is read as the dot of a pair. -/
theorem not_readsQuoted_dot : ¬ReadsQuoted ['.'] rest := by
  intro hreads
  have hword : ∀ ch ∈ ['.'], plainChar ch := by
    intro ch hch
    rw [List.mem_singleton.mp hch]
    exact ⟨by decide, by decide⟩
  have hdot : tokenize (String.ofList ['.']) = ["."] := tokenize_word hword (by decide)
  have hsymbol : parse ["."] = .ok (.symbol ".", []) := rfl
  have hparsed := hreads.parsed (.symbol ".") (by rw [hdot, hsymbol])
  rw [hreads.tokens, hdot] at hparsed
  obtain ⟨k, hk⟩ : ∃ k, 2 * ("(" :: "'" :: ["."] ++ ")" ::
      tokenize (String.ofList rest)).length + 1 = k + 4 := by
    refine ⟨2 * ("(" :: "'" :: ["."] ++ ")" :: tokenize (String.ofList rest)).length - 3, ?_⟩
    simp only [List.length_cons, List.length_append]
    omega
  have hatom : parseAtom "'" = .ok (.symbol "'") := rfl
  rw [parse, hk, List.cons_append, List.cons_append, parseOne, if_pos rfl, parseItems,
    if_neg (by decide), if_neg (by decide), parseOne, if_neg (by decide), if_neg (by decide),
    hatom] at hparsed
  change parseItems (k + 2) [.symbol "'"] ("." :: ")" :: tokenize (String.ofList rest)) = _
    at hparsed
  rw [parseItems, if_neg (by decide), if_pos rfl, if_neg (List.cons_ne_nil _ _), parseOne,
    if_neg (by decide), if_pos rfl] at hparsed
  cases hparsed

theorem readsQuoted_word_iff (hw : ∀ ch ∈ w, plainChar ch) (hne : w ≠ [])
    (hrest : WordEnds rest) : ReadsQuoted w rest ↔ WordQuoted w rest := by
  constructor
  · intro hreads
    have hhash : ¬HashComment w rest := by
      rintro ⟨hlast, more, rfl⟩
      obtain ⟨v, rfl⟩ := List.getLast?_eq_some_iff.mp hlast
      rcases v with - | ⟨ch, v⟩
      · exact not_readsQuoted_of_not_quotes rfl hreads
      · have hv : ∀ c ∈ ch :: v, plainChar c := fun c hc => hw c (List.mem_append_left _ hc)
        have htext : ch :: v ++ ['#'] ++ ';' :: more = ch :: v ++ '#' :: ';' :: more := by simp
        have hnot : ¬HashComment (ch :: v) ('#' :: ';' :: more) := by
          rintro ⟨-, more', heq⟩
          cases heq
        refine not_readsQuoted_of_atom hw hne ?_ ?_ hreads
        · rw [htext]
          exact quotes_cons_word hv (List.cons_ne_nil _ _) hnot
        · rw [htext, takeAtom_append_word (fun c hc => (hv c hc).1) hnot, takeAtom]
          simp
    refine ⟨hw, ?_, ?_, hhash⟩
    · rintro rfl
      exact not_readsQuoted_dot hreads
    · rintro more rfl
      have hquote : ∀ ch ∈ w ++ ['\''], atomStop ch = false := by
        intro ch hch
        rcases List.mem_append.mp hch with hch | hch
        · exact (hw ch hch).1
        · rw [List.mem_singleton.mp hch]
          decide
      have hnot : ¬HashComment (w ++ ['\'']) more := by
        rintro ⟨hlast, -⟩
        rw [List.getLast?_append_of_ne_nil _ (List.cons_ne_nil _ _)] at hlast
        cases hlast
      refine not_readsQuoted_of_atom hw hne (quotes_cons_word hw hne hhash) ?_ hreads
      have htext : w ++ '\'' :: more = w ++ ['\''] ++ more := by simp
      rw [htext, takeAtom_append_word hquote hnot]
      intro heq
      have hlength := congrArg List.length heq
      simp only [List.length_append, List.length_singleton] at hlength
      omega
  · exact fun h => h.reads hne hrest

theorem tokensFrom_quotes (hquotes : quotes e = true) :
    ∃ ts, tokensFrom [] ('\'' :: e) = "(" :: ts := by
  by_cases hlist : ∃ more, e = '(' :: more
  · obtain ⟨more, rfl⟩ := hlist
    exact ⟨_, tokensFrom_quoted_list⟩
  · exact ⟨_, tokensFrom_quoted_atom hquotes fun more heq => hlist ⟨more, heq⟩⟩

theorem not_hashComment_nil (w : List Char) : ¬HashComment w [] := by
  rintro ⟨-, more, h⟩
  cases h

theorem quotes_mark (cs : List Char) : quotes ('\'' :: cs) = true := by
  rw [quotes]
  · rfl
  · exact fun _ h => absurd h (by decide)

/-- The second of two quote marks becomes a part of an atom. -/
theorem not_readsQuoted_quote {body : List Char → Prop} (he : SourceText body .expr e) :
    ¬ReadsQuoted ('\'' :: e) rest := by
  intro hreads
  have htokens := hreads.tokens
  have hmark : takeAtom ('\'' :: (e ++ rest)) =
      ('\'' :: (takeAtom (e ++ rest)).1, (takeAtom (e ++ rest)).2) :=
    takeAtom_append_word (w := ['\'']) (List.forall_mem_singleton.mpr (by decide))
      (fun h => absurd h.1 (by decide))
  have hlist : ∀ more, '\'' :: (e ++ rest) ≠ '(' :: more :=
    fun more heq => absurd (List.cons.inj heq).1 (by decide)
  rw [tokenize_ofList, tokenize_ofList, List.cons_append, List.cons_append,
    tokensFrom_quoted_atom (quotes_mark _) hlist, hmark] at htokens
  have hthird := (List.cons.inj (List.cons.inj htokens).2).2
  have hnot : quotes e ≠ true := by
    intro hquotes
    obtain ⟨ts, hts⟩ := tokensFrom_quotes hquotes
    rw [hts] at hthird
    have hsame := congrArg String.toList (List.cons.inj hthird).1
    rw [String.toList_ofList] at hsame
    have hhead : some '\'' = "(".toList.head? := congrArg List.head? hsame
    exact absurd hhead (by decide)
  cases he with
  | word hne hw =>
    have hquotes := quotes_cons_word hw hne (not_hashComment_nil e)
    rw [List.append_nil] at hquotes
    exact hnot hquotes
  | quote _ => exact hnot (quotes_mark _)
  | list _ =>
    refine hnot ?_
    rw [List.cons_append, quotes]
    · rfl
    · exact fun _ h => absurd h (by decide)
  | @string s hquote _ =>
    have hstring : tokensFrom [] ('"' :: s ++ ['"']) = [String.ofList ('"' :: s ++ ['"'])] := by
      rw [tokensFrom_string hquote, tokensFrom_nil]
      rfl
    rw [tokensFrom_quote_alone rfl, hstring] at hthird
    have hfourth := (List.cons.inj (List.cons.inj hthird).2).1
    have hsame := congrArg String.toList hfourth
    rw [String.toList_ofList, String.toList_ofList] at hsame
    have hhead : some ')' = some '"' := congrArg List.head? hsame
    exact absurd hhead (by decide)

/-- `skip_expression` ends where the list ends. -/
def ListQuoted (e rest : List Char) : Prop := parensFrom 0 (e ++ rest) = (e, rest)

/-- It does where no string of the list has parentheses or semicolons. -/
theorem listQuoted_of_plain (hplain : SourceText plainBody .expr ('(' :: cs)) (rest : List Char) :
    ListQuoted ('(' :: cs) rest := by
  generalize he : '(' :: cs = e at hplain
  cases hplain with
  | word _ hw =>
    subst he
    exact absurd (hw '(' List.mem_cons_self).1 (by decide)
  | string _ _ => exact absurd (List.cons.inj he).1 (by decide)
  | quote _ => exact absurd (List.cons.inj he).1 (by decide)
  | list hinner => exact parensFrom_list hinner.passedOver rest

theorem ListQuoted.reads (h : ListQuoted ('(' :: cs) rest) : ReadsQuoted ('(' :: cs) rest := by
  rw [ListQuoted, parensFrom] at h
  refine readsQuoted_of_tokens ?_ fun ts hts => ?_
  · rw [tokenize_ofList, tokenize_ofList, tokenize_ofList]
    have hlist : tokensFrom [] ('\'' :: '(' :: (cs ++ rest)) = _ := tokensFrom_quoted_list
    rw [← List.cons_append, h] at hlist
    exact hlist
  · rw [tokenize_ofList, tokensFrom_paren (.inl rfl)] at hts
    exact absurd (List.cons.inj hts).1 (by decide)

example : tokenize "'(a 'b) ; c" = ["(", "'", "(", "a", "(", "'", "b", ")", ")", ")"] := by
  decide +kernel

theorem sample_list (body : List Char → Prop) :
    SourceText body .expr ('(' :: ['a', ' ', 'b'] ++ [')']) := by
  have hitem : ∀ ch, plainChar ch → SourceText body .expr [ch] := fun ch hch =>
    .word (List.cons_ne_nil _ _) fun c hc => List.mem_singleton.mp hc ▸ hch
  have ha := hitem 'a' ⟨by decide, by decide⟩
  have hb := hitem 'b' ⟨by decide, by decide⟩
  exact .list (.item (e := ['a']) ha (.blank (by decide) (.item (e := ['b']) hb .nil)))

end Quoted

end Astreum

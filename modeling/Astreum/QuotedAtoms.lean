import Astreum.ReadBack
import Mathlib.Data.Finset.Lattice.Fold
import Mathlib.Tactic.Push

namespace Astreum

section Pieces

open Python

/-- A text of parentheses, blanks, strings and words, with a boundary after each word. -/
inductive Pieces (word : List Char → Prop) : List Char → Prop
  | nil : Pieces word []
  | space {cs : List Char} (h : Pieces word cs) : Pieces word (' ' :: cs)
  | paren {ch : Char} {cs : List Char} (hch : ch = '(' ∨ ch = ')') (h : Pieces word cs) :
      Pieces word (ch :: cs)
  | string {body cs : List Char} (hbody : '"' ∉ body) (h : Pieces word cs) :
      Pieces word ('"' :: body ++ '"' :: cs)
  | word {w cs : List Char} (hw : word w) (hchars : ∀ ch ∈ w, atomStop ch = false)
      (hcs : Boundary cs) (h : Pieces word cs) : Pieces word (w ++ cs)

/-- A token with a quote mark in it comes from a longer word with one. -/
def Traced (word : List Char → Prop) (t : String) : Prop :=
  (∀ ch ∈ t.toList, atomStop ch = false) → ¬Unquoted t →
    t ≠ "" ∧ ∃ w, word w ∧ '\'' :: t.toList <:+: w

variable {word : List Char → Prop} {cs cur v w rest : List Char} {t : String}

theorem traced_of_stop (ch : Char) (h : ch ∈ t.toList) (hstop : atomStop ch = true) :
    Traced word t := by
  intro hchars
  rw [hchars ch h] at hstop
  cases hstop

theorem traced_of_unquoted (h : Unquoted t) : Traced word t := fun _ hquoted => absurd h hquoted

theorem traced_flush (hcur : '\'' ∉ cur) (ht : t ∈ flush cur) : Traced word t := by
  rw [flush] at ht
  split at ht
  · cases ht
  · rename_i hne
    rw [List.mem_singleton.mp ht]
    refine traced_of_unquoted (.inr ⟨fun h => hne ?_, ?_⟩)
    · have hchars := congrArg String.toList h
      rw [String.toList_ofList] at hchars
      exact List.reverse_eq_nil_iff.mp hchars
    · rw [String.toList_ofList, List.mem_reverse]
      exact hcur

/-- Neither a comment nor a list starts where a word ends. -/
theorem ne_of_boundary {ch : Char} (hch : ch = ';' ∨ ch = '(') (hv : ∀ ch ∈ v, atomStop ch = false)
    (hrest : Boundary rest) (cs : List Char) : v ++ rest ≠ ch :: cs := by
  intro heq
  cases v with
  | nil =>
    rw [List.nil_append] at heq
    rw [heq] at hrest
    rcases hrest with rfl | rfl <;> exact absurd hch (by decide)
  | cons c v =>
    have hc := hv c List.mem_cons_self
    rw [(List.cons.inj heq).1] at hc
    rcases hch with rfl | rfl <;> exact absurd hc (by decide)

theorem takeAtom_word (hv : ∀ ch ∈ v, atomStop ch = false) (hrest : Boundary rest) :
    takeAtom (v ++ rest) = (v, rest) := by
  induction v with
  | nil =>
    cases rest with
    | nil => rfl
    | cons ch rest => rcases hrest with rfl | rfl <;> rfl
  | cons ch v ih =>
    have hch := hv ch List.mem_cons_self
    have htail := ih fun c hc => hv c (List.mem_cons_of_mem _ hc)
    rw [List.cons_append, takeAtom]
    · rw [if_neg (Bool.eq_false_iff.mp hch), htail]
    · rintro cs rfl heq
      exact ne_of_boundary (.inl rfl) (fun c hc => hv c (List.mem_cons_of_mem _ hc)) hrest cs heq

theorem quotes_word {ch : Char} (hch : atomStop ch = false)
    (hhash : ∀ cs, ch = '#' → v = ';' :: cs → False) : quotes (ch :: v) = true := by
  rw [quotes]
  · rw [Bool.not_eq_true', decide_eq_false_iff_not]
    intro hmem
    simp only [List.mem_cons, List.not_mem_nil, or_false] at hmem
    rcases hmem with rfl | rfl | rfl | rfl | rfl | rfl | rfl <;> exact absurd hch (by decide)
  · exact hhash

theorem quotes_boundary (h : Boundary rest) : quotes rest = false := by
  cases rest with
  | nil => rfl
  | cons ch rest => rcases h with rfl | rfl <;> rfl

theorem traced_paren {ch : Char} (hch : ch = '(' ∨ ch = ')') :
    Traced word (String.ofList [ch]) := by
  have hstop : atomStop ch = true := by rcases hch with rfl | rfl <;> decide
  refine traced_of_stop ch ?_ hstop
  rw [String.toList_ofList]
  exact List.mem_singleton_self ch

/-- The tokens at a quote mark in a word: what follows it in the word is one token. -/
theorem traced_quote (hw : word w) (hsuffix : '\'' :: v <:+ w)
    (hv : ∀ ch ∈ v, atomStop ch = false) (hrest : Boundary rest)
    (htokens : ∀ n, ∀ t ∈ tokenizeFrom n [] rest, Traced word t) (n : Nat) (hcur : '\'' ∉ cur)
    (ht : t ∈ tokenizeFrom (n + 1) cur ('\'' :: v ++ rest)) : Traced word t := by
  have hquote : Traced word "'" := traced_of_unquoted (.inl rfl)
  have hat : tokenizeFrom (n + 1) cur ('\'' :: v ++ rest) =
      if quotes (v ++ rest) then
        flush cur ++ "(" :: "'" :: String.ofList (takeAtom (v ++ rest)).1 :: ")" ::
          tokenizeFrom n [] (takeAtom (v ++ rest)).2
      else flush cur ++ "'" :: tokenizeFrom n [] (v ++ rest) := by
    rw [List.cons_append,
      tokenizeFrom_of_not_blank n cur (skipBlank_of_not _ (by decide) (by decide)), tokenizeAt]
    exact fun tail => ne_of_boundary (.inr rfl) hv hrest tail
  rw [hat] at ht
  cases v with
  | nil =>
    rw [List.nil_append, quotes_boundary hrest] at ht
    rcases List.mem_append.mp ht with ht | ht
    · exact traced_flush hcur ht
    rcases List.mem_cons.mp ht with rfl | ht
    · exact hquote
    · exact htokens n t ht
  | cons c v =>
    have hv' : ∀ ch ∈ v, atomStop ch = false := fun ch hch => hv ch (List.mem_cons_of_mem _ hch)
    have hquotes : quotes (c :: v ++ rest) = true := quotes_word (hv c List.mem_cons_self)
      fun cs _ heq => ne_of_boundary (.inl rfl) hv' hrest cs heq
    rw [hquotes, if_pos rfl, takeAtom_word hv hrest] at ht
    simp only [List.mem_append, List.mem_cons] at ht
    rcases ht with ht | rfl | rfl | rfl | rfl | ht
    · exact traced_flush hcur ht
    · exact traced_paren (.inl rfl)
    · exact hquote
    · refine fun _ _ => ⟨fun hempty => ?_, w, hw, ?_⟩
      · have hchars := congrArg String.toList hempty
        rw [String.toList_ofList] at hchars
        cases hchars
      · rw [String.toList_ofList]
        exact hsuffix.isInfix
    · exact traced_paren (.inr rfl)
    · exact htokens n t ht

/-- The tokens of what is left of a word and of the text after it. -/
theorem traced_word (hw : word w) (hsuffix : v <:+ w) (hv : ∀ ch ∈ v, atomStop ch = false)
    (hrest : Boundary rest) (htokens : ∀ n, ∀ t ∈ tokenizeFrom n [] rest, Traced word t)
    (n : Nat) (hcur : '\'' ∉ cur) (ht : t ∈ tokenizeFrom n cur (v ++ rest)) : Traced word t := by
  induction v generalizing n cur with
  | nil =>
    cases n with
    | zero => exact traced_flush hcur ht
    | succ n =>
      rw [List.nil_append, tokenizeFrom_boundary hrest] at ht
      rcases List.mem_append.mp ht with ht | ht
      · exact traced_flush hcur ht
      · exact htokens _ t ht
  | cons ch v ih =>
    have hch := hv ch List.mem_cons_self
    have hv' : ∀ c ∈ v, atomStop c = false := fun c hc => hv c (List.mem_cons_of_mem _ hc)
    cases n with
    | zero => exact traced_flush hcur ht
    | succ n =>
      by_cases hquote : ch = '\''
      · subst hquote
        exact traced_quote hw hsuffix hv' hrest htokens n hcur ht
      · rw [List.cons_append, tokenizeFrom_plain ⟨hch, hquote⟩] at ht
        refine ih ((List.suffix_cons ch v).trans hsuffix) hv' n (fun hmem => ?_) ht
        rcases List.mem_cons.mp hmem with h | h
        · exact hquote h.symm
        · exact hcur h

/-- The tokens of a text of words. -/
theorem Pieces.traced (h : Pieces word cs) (n : Nat) (ht : t ∈ tokenizeFrom n [] cs) :
    Traced word t := by
  induction h generalizing n t with
  | nil => cases n <;> cases ht
  | @space cs h ih =>
    cases n with
    | zero => cases ht
    | succ n =>
      rw [tokenizeFrom_space] at ht
      exact ih _ ht
  | @paren ch cs hch h ih =>
    cases n with
    | zero => cases ht
    | succ n =>
      have hat : tokenizeFrom (n + 1) [] (ch :: cs) =
          String.ofList [ch] :: tokenizeFrom n [] cs := by
        rcases hch with rfl | rfl
        · rw [tokenizeFrom_of_not_blank n [] (skipBlank_of_not _ (by decide) (by decide))]
          rfl
        · rw [tokenizeFrom_of_not_blank n [] (skipBlank_of_not _ (by decide) (by decide))]
          rfl
      rw [hat] at ht
      rcases List.mem_cons.mp ht with rfl | ht
      · exact traced_paren hch
      · exact ih n ht
  | @string body cs hbody h ih =>
    cases n with
    | zero => cases ht
    | succ n =>
      rw [List.cons_append,
        tokenizeFrom_of_not_blank n [] (skipBlank_of_not _ (by decide) (by decide)), tokenizeAt,
        span_quote hbody] at ht
      simp only [List.drop_succ_cons, List.drop_zero] at ht
      rcases List.mem_append.mp ht with ht | ht
      · cases ht
      rcases List.mem_cons.mp ht with rfl | ht
      · refine traced_of_stop '"' ?_ (by decide)
        rw [String.toList_ofList]
        exact List.mem_cons_self
      · exact ih n ht
  | word hw hchars hcs h ih =>
    exact traced_word hw (List.suffix_refl _) hchars hcs (fun n t ht => ih n ht) n
      List.not_mem_nil ht

end Pieces

section PrintedPieces

variable {blake3 : Bytes → Bytes} {word : List Char → Prop} {e : Expr} {cs w rest : List Char}
  {parts : List (List Char)}

/-- A text that is made of pieces wherever it stands. -/
def Piecewise (word : List Char → Prop) (cs : List Char) : Prop :=
  ∀ rest, Boundary rest → Pieces word rest → Pieces word (cs ++ rest)

theorem piecewise_word (hw : word w) (hchars : ∀ ch ∈ w, atomStop ch = false) :
    Piecewise word w := fun _ hrest h => .word hw hchars hrest h

theorem piecewise_plain (hplain : ∀ w, '\'' ∉ w → word w) (hw : ∀ ch ∈ w, plainChar ch) :
    Piecewise word w :=
  piecewise_word (hplain w fun h => (hw _ h).2 rfl) fun ch hch => (hw ch hch).1

theorem piecewise_dotted (hplain : ∀ w, '\'' ∉ w → word w) (h : Piecewise word cs) :
    Piecewise word (spaced ['.' :: ' ' :: cs]) := by
  intro rest hrest hpieces
  have hdot : Piecewise word ['.'] := piecewise_plain hplain fun ch hch =>
    List.mem_singleton.mp hch ▸ ⟨by decide, by decide⟩
  have hspace : Boundary (' ' :: (cs ++ rest)) := .inl rfl
  have hall := Pieces.space (hdot _ hspace (.space (h rest hrest hpieces)))
  simpa [spaced] using hall

theorem piecewise_cons (hcs : Piecewise word cs) (hparts : Piecewise word (spaced parts)) :
    Piecewise word (spaced (cs :: parts)) := by
  intro rest hrest hpieces
  have hall := Pieces.space (hcs _ (boundary_spaced hrest parts) (hparts rest hrest hpieces))
  simpa [spaced] using hall

theorem piecewise_list (hcs : Piecewise word cs) (hparts : Piecewise word (spaced parts)) :
    Piecewise word ('(' :: cs ++ spaced parts ++ [')']) := by
  intro rest hrest hpieces
  have hclose : Pieces word (')' :: rest) := .paren (.inr rfl) hpieces
  have hbound : Boundary (')' :: rest) := .inr rfl
  have hall := Pieces.paren (.inl rfl)
    (hcs _ (boundary_spaced hbound parts) (hparts _ hbound hclose))
  simpa using hall

/-- What was read is printed as a text of its symbols and of words without a quote mark. -/
theorem Readable.piecewise (h : Readable e) (hfloat : e.hasFloat = false)
    (hsymbols : ∀ s ∈ e.symbols, word s.toList) (hplain : ∀ w, '\'' ∉ w → word w) :
    (∃ cs, e.repr blake3 = .ok cs ∧ Piecewise word cs) ∧
      ∃ parts, (Child.loaded e).reprTail blake3 = .ok parts ∧ Piecewise word (spaced parts) := by
  have hatomic : ∀ {e : Expr} {cs : List Char}, e.repr blake3 = .ok cs → Piecewise word cs →
      e ≠ .nil → e.continues blake3 = false →
      (∃ cs, e.repr blake3 = .ok cs ∧ Piecewise word cs) ∧
        ∃ parts, (Child.loaded e).reprTail blake3 = .ok parts ∧ Piecewise word (spaced parts) :=
    fun h hcs hnil hcontinues =>
      ⟨⟨_, h, hcs⟩, _, reprTail_dotted h hnil hcontinues, piecewise_dotted hplain hcs⟩
  have hhash : ∀ h : Bytes, Piecewise word ('#' :: hexChars h) :=
    fun h => piecewise_plain hplain fun ch hch => plainChar_hash hch
  induction h with
  | nil =>
    exact ⟨⟨_, rfl, piecewise_plain hplain (forall_plainChar (by decide) (by decide))⟩, [], rfl,
      fun _ _ h => h⟩
  | @symbol s hatom hchars =>
    exact hatomic rfl (piecewise_word (hsymbols s (List.mem_singleton_self s)) hchars)
      (fun h => nomatch h) rfl
  | bytes b =>
    exact hatomic rfl (piecewise_plain hplain fun ch hch => plainChar_bytes hch)
      (fun h => nomatch h) rfl
  | int n =>
    exact hatomic rfl (piecewise_plain hplain fun ch hch => plainChar_numeral hch)
      (fun h => nomatch h) rfl
  | @str s hs =>
    refine hatomic rfl (fun rest _ h => ?_) (fun h => nomatch h) rfl
    have hstring := Pieces.string hs h
    simpa [Val.text] using hstring
  | float bits => cases hfloat
  | ref hlen => exact hatomic rfl (hhash _) (fun h => nomatch h) (not_continues_of_named rfl)
  | @pair h t hh ht =>
    have hrepr : (Expr.link .none (.byHash h) (.byHash t)).repr blake3 =
        .ok ('(' :: ('#' :: hexChars h) ++ spaced ['.' :: ' ' :: '#' :: hexChars t] ++ [')']) :=
      (printed_pair hh ht).repr
    exact hatomic hrepr (piecewise_list (hhash h) (piecewise_dotted hplain (hhash t)))
      (fun h => nomatch h) (not_continues_of_named rfl)
  | @link x y hx hdot hwhole hy ihx ihy =>
    have hfloats : x.hasFloat = false ∧ y.hasFloat = false := Bool.or_eq_false_iff.mp hfloat
    obtain ⟨⟨cs, hcs, hpiece⟩, -⟩ :=
      ihx hfloats.1 fun s hs => hsymbols s (List.mem_append_left _ hs)
    obtain ⟨-, parts, hparts, htail⟩ :=
      ihy hfloats.2 fun s hs => hsymbols s (List.mem_append_right _ hs)
    have hrepr := repr_link hcs hparts
    have hlist := piecewise_list hpiece htail
    refine ⟨⟨_, hrepr, hlist⟩, ?_⟩
    by_cases hcontinues : (Astreum.link x y).continues blake3 = true
    · exact ⟨_, reprTail_link hcs hparts hcontinues, piecewise_cons hpiece htail⟩
    · exact ⟨_, reprTail_dotted hrepr (fun h => nomatch h) (Bool.eq_false_iff.mpr hcontinues),
        piecewise_dotted hplain hlist⟩

end PrintedPieces

section ReadSymbols

variable {e : Expr} {s t : String} {tokens rest : List String}

theorem symbols_parseAtom (h : parseAtom t = .ok e) (hs : s ∈ e.symbols) : Unquoted s ∨ s = t := by
  rw [parseAtom] at h
  split at h
  · cases h
    cases hs
  simp only at h
  have htag : ∀ v tag, Unquoted tag → s ∈ (typed v tag).symbols → Unquoted s := by
    intro v tag htag hs
    have hs' : s ∈ [tag] := hs
    rw [List.mem_singleton.mp hs']
    exact htag
  split at h
  · split at h
    · cases h
    split at h
    · cases h
      cases hs
    · cases h
  · cases h
    exact .inl (htag _ "str" (.inr ⟨by decide, by decide⟩) hs)
  · split at h
    · split at h
      · cases h
        cases hs
      · cases h
    split at h
    · cases h
      exact .inl (htag _ "int" (.inr ⟨by decide, by decide⟩) hs)
    split at h
    · cases h
      exact .inl (htag _ "fp64" (.inr ⟨by decide, by decide⟩) hs)
    · cases h
      exact .inr (List.mem_singleton.mp hs)

theorem symbols_foldr {items : List Expr} {tail : Expr} (hs : s ∈ (items.foldr link tail).symbols) :
    (∃ x ∈ items, s ∈ x.symbols) ∨ s ∈ tail.symbols := by
  induction items with
  | nil => exact .inr hs
  | cons x items ih =>
    have hs' : s ∈ x.symbols ++ (items.foldr link tail).symbols := hs
    rcases List.mem_append.mp hs' with hs | hs
    · exact .inl ⟨x, List.mem_cons_self, hs⟩
    · rcases ih hs with ⟨y, hy, hs⟩ | hs
      · exact .inl ⟨y, List.mem_cons_of_mem _ hy, hs⟩
      · exact .inr hs

/-- The symbols of what was read are tokens, but for the ones that the reader adds. -/
theorem symbols_parse (n : Nat) :
    (∀ (tokens : List String) (e : Expr) (rest : List String),
      parseOne n tokens = .ok (e, rest) → rest ⊆ tokens ∧
        ∀ s ∈ e.symbols, Unquoted s ∨ s ∈ tokens) ∧
    ∀ (items : List Expr) (tokens : List String) (e : Expr) (rest : List String),
      parseItems n items tokens = .ok (e, rest) → rest ⊆ tokens ∧
        ∀ s ∈ e.symbols, Unquoted s ∨ s ∈ tokens ∨ ∃ x ∈ items, s ∈ x.symbols := by
  induction n with
  | zero => exact ⟨fun _ _ _ h => (nomatch h), fun _ _ _ _ h => (nomatch h)⟩
  | succ n ih =>
    refine ⟨fun tokens e rest h => ?_, fun items tokens e rest h => ?_⟩
    · rcases tokens with - | ⟨tok, toks⟩
      · cases h
      rw [parseOne] at h
      split at h
      · obtain ⟨hrest, hall⟩ := ih.2 [] toks e rest h
        refine ⟨fun t ht => List.mem_cons_of_mem _ (hrest ht), fun s hs => ?_⟩
        rcases hall s hs with hs | hs | ⟨x, hx, -⟩
        · exact .inl hs
        · exact .inr (List.mem_cons_of_mem _ hs)
        · cases hx
      split at h
      · cases h
      · obtain ⟨e', hatom, h⟩ := except_bind_eq_ok.mp h
        cases h
        refine ⟨fun t ht => List.mem_cons_of_mem _ ht, fun s hs => ?_⟩
        rcases symbols_parseAtom hatom hs with hs | rfl
        · exact .inl hs
        · exact .inr List.mem_cons_self
    · rcases tokens with - | ⟨tok, toks⟩
      · cases h
      rw [parseItems] at h
      split at h
      · cases h
        refine ⟨fun t ht => List.mem_cons_of_mem _ ht, fun s hs => ?_⟩
        rw [buildChain] at hs
        split at hs
        · have hs' : s ∈ ["'"] := hs
          exact .inl (.inl (List.mem_singleton.mp hs'))
        · rcases symbols_foldr hs with ⟨x, hx, hs⟩ | hs
          · exact .inr (.inr ⟨x, List.mem_reverse.mp hx, hs⟩)
          · cases hs
      split at h
      · split at h
        · cases h
        obtain ⟨⟨tail, toks'⟩, hone, h⟩ := except_bind_eq_ok.mp h
        obtain ⟨hrest, hall⟩ := ih.1 toks tail toks' hone
        simp only at h
        split at h
        · cases h
          refine ⟨fun t ht => List.mem_cons_of_mem _ (hrest (List.mem_cons_of_mem _ ht)),
            fun s hs => ?_⟩
          rw [dottedPair.eq_def] at hs
          split at hs
          · cases hs
          · rcases symbols_foldr hs with ⟨x, hx, hs⟩ | hs
            · exact .inr (.inr ⟨x, List.mem_reverse.mp hx, hs⟩)
            · rcases hall s hs with hs | hs
              · exact .inl hs
              · exact .inr (.inl (List.mem_cons_of_mem _ hs))
        · cases h
      · obtain ⟨⟨item, toks'⟩, hone, h⟩ := except_bind_eq_ok.mp h
        obtain ⟨hrest, hitem⟩ := ih.1 (tok :: toks) item toks' hone
        obtain ⟨hrest', hall⟩ := ih.2 (item :: items) toks' e rest h
        refine ⟨fun t ht => hrest (hrest' ht), fun s hs => ?_⟩
        rcases hall s hs with hs | hs | ⟨x, hx, hs⟩
        · exact .inl hs
        · exact .inr (.inl (hrest hs))
        · rcases List.mem_cons.mp hx with rfl | hx
          · rcases hitem s hs with hs | hs
            · exact .inl hs
            · exact .inr (.inl hs)
          · exact .inr (.inr ⟨x, hx, hs⟩)

theorem Readable.atomStop_symbols (h : Readable e) (hs : s ∈ e.symbols) :
    ∀ ch ∈ s.toList, atomStop ch = false := by
  have htag : ∀ v tag, (∀ ch ∈ tag.toList, atomStop ch = false) → s ∈ (typed v tag).symbols →
      ∀ ch ∈ s.toList, atomStop ch = false := by
    intro v tag htag hs
    have hs' : s ∈ [tag] := hs
    rw [List.mem_singleton.mp hs']
    exact htag
  induction h with
  | symbol hatom hchars =>
    rw [List.mem_singleton.mp hs]
    exact hchars
  | int n => exact htag _ "int" (forall_atomStop (by decide)) hs
  | str h => exact htag _ "str" (forall_atomStop (by decide)) hs
  | float bits => exact htag _ "fp64" (forall_atomStop (by decide)) hs
  | link hx hdot hwhole hy ihx ihy =>
    rcases List.mem_append.mp hs with hs | hs
    · exact ihx hs
    · exact ihy hs
  | _ => cases hs

end ReadSymbols

section ReadsBack

variable {blake3 : Bytes → Bytes} {e : Expr} {text : List Char}

/-- Where the printed text is read as the same expr, a symbol with a quote mark next to other
characters would come from a longer one. -/
theorem exists_longer_symbol (hreadable : Readable e) (hfloat : e.hasFloat = false)
    (hrepr : e.repr blake3 = .ok text) (h : parseText (String.ofList text) = .ok e) {s : String}
    (hs : s ∈ e.symbols) (hquoted : ¬Unquoted s) :
    ∃ s' ∈ e.symbols, ¬Unquoted s' ∧ s.length < s'.length := by
  have hpieces : ∃ cs, e.repr blake3 = .ok cs ∧
      Piecewise (fun w => (∃ s ∈ e.symbols, w = s.toList) ∨ '\'' ∉ w) cs :=
    (hreadable.piecewise hfloat (fun s hs => .inl ⟨s, hs, rfl⟩) fun w hw => .inr hw).1
  obtain ⟨cs, hcs, hpiecewise⟩ := hpieces
  rw [hrepr] at hcs
  rw [← Except.ok.inj hcs] at hpiecewise
  have hall := hpiecewise [] trivial .nil
  rw [List.append_nil] at hall
  rw [parseText] at h
  simp only at h
  split at h
  · cases h
  obtain ⟨⟨e', rest⟩, hparse, h⟩ := except_bind_eq_ok.mp h
  cases h
  have htoken := ((symbols_parse _).1 _ _ _ hparse).2 s hs |>.resolve_left hquoted
  rw [tokenize, String.toList_ofList] at htoken
  obtain ⟨hne, w, hw, hinfix⟩ := hall.traced _ htoken (hreadable.atomStop_symbols hs) hquoted
  have hquote : '\'' ∈ w := hinfix.subset List.mem_cons_self
  rcases hw with ⟨s', hs', rfl⟩ | hw
  · have hlength := hinfix.length_le
    rw [List.length_cons, String.length_toList, String.length_toList] at hlength
    refine ⟨s', hs', ?_, hlength⟩
    rintro (rfl | ⟨-, hplain⟩)
    · have hzero : s.toList.length = 0 := by
        have hone : ("'" : String).length = 1 := by decide
        rw [String.length_toList]
        omega
      exact hne (String.toList_eq_nil_iff.mp (List.eq_nil_of_length_eq_zero hzero))
    · exact hplain hquote
  · exact absurd hquote hw

theorem unquoted_of_reads_back (hreadable : Readable e) (hfloat : e.hasFloat = false)
    (hrepr : e.repr blake3 = .ok text) (h : parseText (String.ofList text) = .ok e) :
    ∀ s ∈ e.symbols, Unquoted s := by
  by_contra hquoted
  push Not at hquoted
  obtain ⟨s₀, hs₀, hquoted₀⟩ := hquoted
  have hlong : ∀ k, ∃ s ∈ e.symbols, ¬Unquoted s ∧ k ≤ s.length := by
    intro k
    induction k with
    | zero => exact ⟨s₀, hs₀, hquoted₀, Nat.zero_le _⟩
    | succ k ih =>
      obtain ⟨s, hs, hquoted, hk⟩ := ih
      obtain ⟨s', hs', hquoted', hlt⟩ := exists_longer_symbol hreadable hfloat hrepr h hs hquoted
      exact ⟨s', hs', hquoted', by omega⟩
  obtain ⟨s, hs, -, hk⟩ := hlong (e.symbols.toFinset.sup String.length + 1)
  have hle : s.length ≤ e.symbols.toFinset.sup String.length :=
    Finset.le_sup (List.mem_toFinset.mpr hs)
  omega

/-- A call with a dotted pair, a quoted symbol, bytes and a string. -/
def sampleCall : Expr :=
  link (.symbol "f") (link (link (int_ (-3)) (str_ "a b"))
    (link (link (.symbol "'") (link (.symbol "x") .nil)) (.bytes [15])))

end ReadsBack

end Astreum

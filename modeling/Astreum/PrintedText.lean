import Astreum.Printer

namespace Astreum

section Readable

/-- A link that the reader merges with another into a pair of hashes. -/
def Expr.named (e : Expr) : Bool := e.headHash?.isSome

/-- A pair in parentheses of its own would be read as a pair of hashes. -/
def Expr.merges : Expr → Bool
  | .link .none (.loaded x) (.loaded y) => x.named && y.named
  | _ => false

/-- What the reader gives, and the rests of its lists. -/
inductive Readable : Expr → Prop
  | nil : Readable .nil
  | symbol {s : String} (hatom : parseAtom s = .ok (.symbol s))
      (hchars : ∀ ch ∈ s.toList, atomStop ch = false) : Readable (.symbol s)
  | bytes (b : Bytes) : Readable (.bytes b)
  | int (n : Int) : Readable (int_ n)
  | str {s : String} (h : '"' ∉ s.toList) : Readable (str_ s)
  | float (bits : UInt64) : Readable (typed (.f64 bits) "fp64")
  | ref {h : Bytes} (hlen : h.length = 32) : Readable (refTo h)
  | pair {h t : Bytes} (hh : h.length = 32) (ht : t.length = 32) :
      Readable (.link .none (.byHash h) (.byHash t))
  | link {x y : Expr} (hx : Readable x) (hdot : x ≠ .symbol ".") (hwhole : x.merges = false)
      (hy : Readable y) : Readable (link x y)

mutual

/-- The symbols of an expr. -/
def Expr.symbols : Expr → List String
  | .symbol s => [s]
  | .link _ h t => h.symbols ++ t.symbols
  | _ => []

def Child.symbols : Child → List String
  | .loaded e => e.symbols
  | _ => []

end

def Val.isFloat : Val → Bool
  | .f64 _ => true
  | _ => false

mutual

def Expr.hasFloat : Expr → Bool
  | .link v h t => v.isFloat || h.hasFloat || t.hasFloat
  | _ => false

def Child.hasFloat : Child → Bool
  | .loaded e => e.hasFloat
  | _ => false

end

/-- A symbol that is written without a quote mark next to other characters. -/
def Unquoted (s : String) : Prop := s = "'" ∨ (s ≠ "" ∧ '\'' ∉ s.toList)

variable (blake3 : Bytes → Bytes)

/-- A text of an expr that is read back as it, wherever it stands. -/
structure Printed (e : Expr) (cs : List Char) (tokens : List String) : Prop where
  repr : e.repr blake3 = .ok cs
  reads : ∀ rest tokens', Boundary rest → Reads rest tokens' →
    Reads (cs ++ rest) (tokens ++ tokens')
  parses : ∀ n rest, 2 * tokens.length < n → parseOne n (tokens ++ rest) = .ok (e, rest)
  first : ∃ tok toks, tokens = tok :: toks ∧ tok ≠ ")" ∧ (tok = "." → e = .symbol ".")

/-- The parts for the tail of a list, which are read back as that tail. -/
structure PrintedTail (e : Expr) (parts : List (List Char)) (tokens : List String) : Prop where
  repr : (Child.loaded e).reprTail blake3 = .ok parts
  reads : ∀ rest tokens', Boundary rest → Reads rest tokens' →
    Reads (spaced parts ++ rest) (tokens ++ tokens')
  parses : ∀ n items rest, items ≠ [] → (∀ x, items = [x] → ¬(x.named = true ∧ e.named = true)) →
    2 * tokens.length + 1 < n →
    parseItems n items (tokens ++ ")" :: rest) = .ok (items.reverse.foldr Astreum.link e, rest)

variable {blake3} {e x y : Expr} {cs w rest : List Char} {tokens : List String}
  {parts : List (List Char)}

theorem boundary_spaced (h : Boundary rest) (parts : List (List Char)) :
    Boundary (spaced parts ++ rest) := by
  cases parts with
  | nil => exact h
  | cons part parts => exact .inl rfl

/-- An atom that is one token. -/
theorem printed_atom (hrepr : e.repr blake3 = .ok w) (hne : w ≠ [])
    (hw : ∀ ch ∈ w, plainChar ch) (hatom : parseAtom (String.ofList w) = .ok e)
    (hdot : w = ['.'] → e = .symbol ".") : Printed blake3 e w [String.ofList w] := by
  have hparen : ∀ ch, ch = '(' ∨ ch = ')' → String.ofList w ≠ String.ofList [ch] := by
    intro ch hch heq
    rw [String.ofList_injective heq] at hw
    have hplain := (hw ch (List.mem_singleton_self _)).not_mem
    rcases hch with rfl | rfl <;> exact absurd hplain (by decide)
  refine ⟨hrepr, fun rest tokens' hrest h => reads_word hne hw hrest h, fun n rest hn => ?_,
    String.ofList w, [], rfl, hparen ')' (.inr rfl), fun h => ?_⟩
  · obtain ⟨n, rfl⟩ : ∃ m, n = m + 1 := ⟨n - 1, by omega⟩
    have hopen : String.ofList w ≠ "(" := hparen '(' (.inl rfl)
    have hclose : String.ofList w ≠ ")" := hparen ')' (.inr rfl)
    rw [List.singleton_append, parseOne, if_neg hopen, if_neg hclose, hatom]
    rfl
  · have hdots : String.ofList w = String.ofList ['.'] := h
    exact hdot (String.ofList_injective hdots)

theorem dottedPair_eq {items : List Expr}
    (h : ∀ x, items = [x] → ¬(x.named = true ∧ e.named = true)) :
    dottedPair items e = items.foldr Astreum.link e := by
  rw [dottedPair.eq_def]
  split
  · exact absurd ⟨rfl, rfl⟩ (h _ rfl)
  · rfl

theorem reprTail_dotted (h : e.repr blake3 = .ok cs) (hnil : e ≠ .nil)
    (hcontinues : e.continues blake3 = false) :
    (Child.loaded e).reprTail blake3 = .ok ['.' :: ' ' :: cs] := by
  rw [Child.reprTail, if_neg hnil, hcontinues, if_neg (by decide), h]
  rfl

theorem reprTail_link (hx : x.repr blake3 = .ok cs)
    (hy : (Child.loaded y).reprTail blake3 = .ok parts)
    (hcontinues : (link x y).continues blake3 = true) :
    (Child.loaded (link x y)).reprTail blake3 = .ok (cs :: parts) := by
  rw [Child.reprTail, if_neg (fun h => nomatch h), hcontinues, if_pos rfl, link, Expr.reprParts,
    Child.reprHead, hx, hy]
  rfl

theorem repr_link (hx : x.repr blake3 = .ok cs)
    (hy : (Child.loaded y).reprTail blake3 = .ok parts) :
    (link x y).repr blake3 = .ok ('(' :: cs ++ spaced parts ++ [')']) := by
  rw [link, Expr.repr]
  simp only [ne_eq, not_true_eq_false, false_and, if_false, Child.hash?, Option.isSome_none,
    Bool.false_eq_true, Child.reprHead, hx, hy]
  rfl

/-- A tail that is no list stands behind a dot. -/
theorem printedTail_of_printed (h : Printed blake3 e cs tokens) (hnil : e ≠ .nil)
    (hcontinues : e.continues blake3 = false) :
    PrintedTail blake3 e ['.' :: ' ' :: cs] ("." :: tokens) where
  repr := reprTail_dotted h.repr hnil hcontinues
  reads := by
    intro rest tokens' hrest hreads
    have hdot : Reads (['.'] ++ (' ' :: (cs ++ rest))) ("." :: (tokens ++ tokens')) := by
      refine reads_word (List.cons_ne_nil _ _) (fun ch hch => ?_) (.inl rfl)
        (reads_space (h.reads rest tokens' hrest hreads))
      rw [List.mem_singleton.mp hch]
      exact ⟨by decide, by decide⟩
    have hparts : spaced ['.' :: ' ' :: cs] ++ rest = ' ' :: (['.'] ++ (' ' :: (cs ++ rest))) := by
      simp [spaced]
    rw [hparts]
    exact reads_space hdot
  parses := by
    intro n items rest hitems hmerge hn
    rw [List.length_cons] at hn
    obtain ⟨n, rfl⟩ : ∃ m, n = m + 1 := ⟨n - 1, by omega⟩
    have hclose : ("." : String) ≠ ")" := by decide
    rw [List.cons_append, parseItems, if_neg hclose, if_pos rfl, if_neg hitems,
      h.parses n _ (by omega)]
    have hpair : dottedPair items.reverse e = items.reverse.foldr Astreum.link e :=
      dottedPair_eq fun x hx => hmerge x (List.reverse_eq_iff.mp hx)
    simp only [bind, Except.bind, hpair]
    rfl

theorem parseItems_item (h : Printed blake3 x cs tokens) (hdot : x ≠ .symbol ".") {n : Nat}
    (hn : 2 * tokens.length < n) (items : List Expr) (more : List String) :
    parseItems (n + 1) items (tokens ++ more) = parseItems n (x :: items) more := by
  obtain ⟨tok, toks, htokens, hclose, hfirst⟩ := h.first
  have hparse := h.parses n more hn
  rw [htokens, List.cons_append] at hparse ⊢
  rw [parseItems, if_neg hclose, if_neg fun heq => hdot (hfirst heq), hparse]
  rfl

/-- The parts of a link and of its tail after it. -/
theorem printedTail_link {tail : List String} (hx : Printed blake3 x cs tokens)
    (hdot : x ≠ .symbol ".") (hy : PrintedTail blake3 y parts tail)
    (hcontinues : (link x y).continues blake3 = true) :
    PrintedTail blake3 (link x y) (cs :: parts) (tokens ++ tail) where
  repr := reprTail_link hx.repr hy.repr hcontinues
  reads := by
    intro rest tokens' hrest hreads
    have htail := hx.reads _ _ (boundary_spaced hrest parts) (hy.reads rest tokens' hrest hreads)
    have hspaced : spaced (cs :: parts) ++ rest = ' ' :: (cs ++ (spaced parts ++ rest)) := by
      simp [spaced]
    rw [hspaced, List.append_assoc]
    exact reads_space htail
  parses := by
    intro n items rest hitems _ hn
    rw [List.length_append] at hn
    obtain ⟨tok, toks, htokens, -⟩ := hx.first
    have hlen : 0 < tokens.length := by
      rw [htokens]
      exact Nat.succ_pos _
    obtain ⟨n, rfl⟩ : ∃ m, n = m + 1 := ⟨n - 1, by omega⟩
    rw [List.append_assoc, parseItems_item hx hdot (by omega),
      hy.parses n (x :: items) rest (List.cons_ne_nil _ _) (fun x' hx' => ?_) (by omega)]
    · rw [List.reverse_cons, List.foldr_append]
      rfl
    · exact absurd (List.cons.inj hx').2 hitems

/-- A list in its parentheses. -/
theorem printed_link {tail : List String} (hx : Printed blake3 x cs tokens)
    (hdot : x ≠ .symbol ".") (hy : PrintedTail blake3 y parts tail)
    (hwhole : (link x y).merges = false) :
    Printed blake3 (link x y) ('(' :: cs ++ spaced parts ++ [')'])
      ("(" :: (tokens ++ (tail ++ [")"]))) where
  repr := repr_link hx.repr hy.repr
  reads := by
    intro rest tokens' hrest hreads
    have hclose := reads_paren (.inr rfl) hreads
    have hbound : Boundary (')' :: rest) := .inr rfl
    have htail := hy.reads _ _ hbound hclose
    have hitem := hx.reads _ _ (boundary_spaced hbound parts) htail
    have hopen := reads_paren (.inl rfl) hitem
    simpa using hopen
  parses := by
    intro n rest hn
    simp only [List.length_cons, List.length_append, List.length_nil] at hn
    obtain ⟨n, rfl⟩ : ∃ m, n = m + 2 := ⟨n - 2, by omega⟩
    have hmerge : ∀ x', [x] = [x'] → ¬(x'.named = true ∧ y.named = true) := by
      intro x' hx' hboth
      rw [← List.singleton_inj.mp hx'] at hboth
      have hmerges : (link x y).merges = (x.named && y.named) := rfl
      rw [hmerges, hboth.1, hboth.2] at hwhole
      exact absurd hwhole (by decide)
    rw [List.cons_append, parseOne, if_pos rfl, List.append_assoc,
      parseItems_item hx hdot (by omega), List.append_assoc, List.singleton_append,
      hy.parses n [x] rest (List.cons_ne_nil _ _) hmerge (by omega)]
    rfl
  first := ⟨"(", _, rfl, by decide, fun h => absurd h (by decide)⟩

theorem printed_nil : Printed blake3 .nil ['n', 'i', 'l'] ["nil"] :=
  printed_atom rfl (List.cons_ne_nil _ _) (forall_plainChar (by decide) (by decide)) (by decide)
    fun h => nomatch h

theorem printedTail_nil : PrintedTail blake3 .nil [] [] where
  repr := rfl
  reads _ _ _ h := h
  parses := by
    intro n items rest hitems _ hn
    obtain ⟨n, rfl⟩ : ∃ m, n = m + 1 := ⟨n - 1, by omega⟩
    rw [List.nil_append, parseItems, if_pos rfl, buildChain,
      if_neg (List.reverse_ne_nil_iff.mpr hitems)]
    rfl

theorem plainChar_hexChars {b : Bytes} {ch : Char} (h : ch ∈ hexChars b) : plainChar ch := by
  have hall : ∀ k < 16, atomStop (Nat.digitChar k) = false ∧ Nat.digitChar k ≠ '\'' := by decide
  obtain ⟨x, -, hx⟩ := List.mem_flatMap.mp h
  have hlt := x.toNat_lt
  rcases List.mem_cons.mp hx with rfl | hx
  · exact hall _ (by omega)
  · rw [List.mem_singleton.mp hx]
    exact hall _ (by omega)

theorem ofList_ne_nil {ch : Char} (h : ch ≠ 'n') (cs : List Char) :
    String.ofList (ch :: cs) ≠ "nil" := by
  intro heq
  have hchars : String.ofList (ch :: cs) = String.ofList ['n', 'i', 'l'] := heq
  exact h (List.cons.inj (String.ofList_injective hchars)).1

theorem plainChar_bytes {b : Bytes} {ch : Char} (h : ch ∈ '0' :: 'x' :: hexChars b) :
    plainChar ch := by
  rcases List.mem_cons.mp h with rfl | h
  · exact ⟨by decide, by decide⟩
  rcases List.mem_cons.mp h with rfl | h
  · exact ⟨by decide, by decide⟩
  · exact plainChar_hexChars h

theorem printed_bytes (b : Bytes) :
    Printed blake3 (.bytes b) ('0' :: 'x' :: hexChars b)
      [String.ofList ('0' :: 'x' :: hexChars b)] := by
  refine printed_atom rfl (List.cons_ne_nil _ _) (fun ch hch => plainChar_bytes hch) ?_
    fun h => nomatch h
  · have hlower : (('0' :: 'x' :: hexChars b).take 2).map Char.toLower = ['0', 'x'] := by
      simp only [List.take_succ_cons, List.take_zero, List.map_cons, List.map_nil]
      decide
    rw [parseAtom, if_neg (ofList_ne_nil (by decide) _), String.toList_ofList]
    simp only [hlower, if_true, List.drop_succ_cons, List.drop_zero, bytesFromHex_hexChars]
    rfl

theorem parseAtom_hash {h : Bytes} (hlen : h.length = 32) :
    parseAtom (String.ofList ('#' :: hexChars h)) = .ok (refTo h) := by
  have hlength : ('#' :: hexChars h).length = 65 := by
    rw [List.length_cons, length_hexChars, hlen]
  rw [parseAtom, if_neg (ofList_ne_nil (by decide) _), String.toList_ofList]
  simp only [hlength, ne_eq, not_true_eq_false, if_false, bytesFromHex_hexChars]

theorem plainChar_hash {h : Bytes} {ch : Char} (hch : ch ∈ '#' :: hexChars h) : plainChar ch := by
  rcases List.mem_cons.mp hch with rfl | hch
  · exact ⟨by decide, by decide⟩
  · exact plainChar_hexChars hch

theorem printed_ref {h : Bytes} (hlen : h.length = 32) :
    Printed blake3 (refTo h) ('#' :: hexChars h) [String.ofList ('#' :: hexChars h)] :=
  printed_atom rfl (List.cons_ne_nil _ _) (fun _ hch => plainChar_hash hch) (parseAtom_hash hlen)
    fun h => nomatch h

theorem parseAtom_numeral (n : Int) : parseAtom (toString n) = .ok (int_ n) := by
  have hmem : ∀ ch ∈ (toString n).toList, ch ∈ numeralChars := fun _ => mem_numeralChars
  have hnil : toString n ≠ "nil" := by
    intro heq
    rw [heq] at hmem
    exact absurd (hmem 'n' (by decide)) (by decide)
  have hhex : ((toString n).toList.take 2).map Char.toLower ≠ ['0', 'x'] := by
    have hlower : numeralChars.all (·.toLower != 'x') = true := by decide
    intro heq
    have hx : 'x' ∈ ((toString n).toList.take 2).map Char.toLower := by
      rw [heq]
      decide
    obtain ⟨ch, hch, hch'⟩ := List.mem_map.mp hx
    have hne := List.all_eq_true.mp hlower ch (hmem ch (List.mem_of_mem_take hch))
    exact bne_iff_ne.mp hne hch'
  rw [parseAtom, if_neg hnil]
  simp only
  split
  · rename_i heq
    rw [heq] at hmem
    exact absurd (hmem '#' List.mem_cons_self) (by decide)
  · rename_i heq
    rw [heq] at hmem
    exact absurd (hmem '"' List.mem_cons_self) (by decide)
  · rw [if_neg hhex, intOfText_toString]

theorem plainChar_numeral {n : Int} {ch : Char} (h : ch ∈ (toString n).toList) : plainChar ch :=
  forall_plainChar (by decide) (by decide) ch (mem_numeralChars h)

theorem printed_int (n : Int) :
    Printed blake3 (int_ n) (toString n).toList [String.ofList (toString n).toList] := by
  have hne : (toString n).toList ≠ [] := by
    rw [toList_toString]
    split
    · exact List.cons_ne_nil _ _
    · exact Nat.toDigits_ne_nil
  refine printed_atom rfl hne (fun ch hch => plainChar_numeral hch) ?_ ?_
  · rw [String.ofList_toList]
    exact parseAtom_numeral n
  · intro hdot
    have hmem : '.' ∈ numeralChars := mem_numeralChars (n := n) (hdot ▸ List.mem_singleton_self _)
    exact absurd hmem (by decide)

theorem printed_symbol {s : String} (hatom : parseAtom s = .ok (.symbol s))
    (hchars : ∀ ch ∈ s.toList, atomStop ch = false) (h : Unquoted s) :
    Printed blake3 (.symbol s) s.toList [s] := by
  rcases h with rfl | ⟨hne, hquote⟩
  · refine ⟨rfl, fun rest tokens' hrest hreads => reads_quote hrest hreads, fun n rest hn => ?_,
      "'", [], rfl, by decide, fun h => absurd h (by decide)⟩
    obtain ⟨n, rfl⟩ : ∃ m, n = m + 1 := ⟨n - 1, by omega⟩
    have hopen : ("'" : String) ≠ "(" := by decide
    have hclose : ("'" : String) ≠ ")" := by decide
    rw [List.singleton_append, parseOne, if_neg hopen, if_neg hclose, hatom]
    rfl
  · have hprinted : Printed blake3 (.symbol s) s.toList [String.ofList s.toList] := printed_atom rfl
      (fun h => hne (String.toList_eq_nil_iff.mp h))
      (fun ch hch => ⟨hchars ch hch, fun heq => hquote (heq ▸ hch)⟩)
      (by rw [String.ofList_toList]; exact hatom)
      (fun hdot => by rw [← String.ofList_toList (s := s), hdot])
    rw [String.ofList_toList] at hprinted
    exact hprinted

theorem ofList_string_ne (ch : Char) (h : '"' ≠ ch) (cs : List Char) :
    String.ofList ('"' :: cs) ≠ String.ofList [ch] :=
  fun heq => h (List.cons.inj (String.ofList_injective heq)).1

theorem parseAtom_string (s : String) :
    parseAtom (String.ofList ('"' :: s.toList ++ ['"'])) = .ok (str_ s) := by
  rw [List.cons_append, parseAtom, if_neg (ofList_ne_nil (by decide) _), String.toList_ofList]
  simp

theorem printed_str {s : String} (h : '"' ∉ s.toList) :
    Printed blake3 (str_ s) ('"' :: s.toList ++ ['"'])
      [String.ofList ('"' :: s.toList ++ ['"'])] where
  repr := rfl
  reads rest tokens' _ hreads := by
    have hstring := reads_string h hreads
    simpa using hstring
  parses n rest hn := by
    obtain ⟨n, rfl⟩ : ∃ m, n = m + 1 := ⟨n - 1, by omega⟩
    have hopen : String.ofList ('"' :: s.toList ++ ['"']) ≠ "(" :=
      ofList_string_ne '(' (by decide) _
    have hclose : String.ofList ('"' :: s.toList ++ ['"']) ≠ ")" :=
      ofList_string_ne ')' (by decide) _
    rw [List.singleton_append, parseOne, if_neg hopen, if_neg hclose, parseAtom_string]
    rfl
  first := ⟨_, [], rfl, ofList_string_ne ')' (by decide) _, fun h =>
    absurd h (ofList_string_ne '.' (by decide) _)⟩

theorem printed_pair {h t : Bytes} (hh : h.length = 32) (ht : t.length = 32) :
    Printed blake3 (.link .none (.byHash h) (.byHash t))
      ('(' :: ('#' :: hexChars h) ++ spaced ['.' :: ' ' :: '#' :: hexChars t] ++ [')'])
      ["(", String.ofList ('#' :: hexChars h), ".", String.ofList ('#' :: hexChars t), ")"] where
  repr := by
    rw [Expr.repr]
    rfl
  reads rest tokens' _ hreads := by
    have hhead : Printed blake3 (refTo h) _ _ := printed_ref hh
    have htail : Printed blake3 (refTo t) _ _ := printed_ref ht
    have hlast := htail.reads (')' :: rest) _ (.inr rfl) (reads_paren (.inr rfl) hreads)
    have hbound : Boundary (' ' :: ('#' :: hexChars t ++ ')' :: rest)) := .inl rfl
    have hdot := reads_word (w := ['.']) (List.cons_ne_nil _ _)
      (fun ch hch => List.mem_singleton.mp hch ▸ ⟨by decide, by decide⟩) hbound
      (reads_space hlast)
    have hfirst := hhead.reads (' ' :: _) _ (.inl rfl) (reads_space hdot)
    have hopen := reads_paren (.inl rfl) hfirst
    simpa [spaced] using hopen
  parses n rest hn := by
    simp only [List.length_cons, List.length_nil] at hn
    obtain ⟨n, rfl⟩ : ∃ m, n = m + 4 := ⟨n - 4, by omega⟩
    have hhead : Printed blake3 (refTo h) _ _ := printed_ref hh
    have htail : Printed blake3 (refTo t) _ _ := printed_ref ht
    have hitem := parseItems_item hhead (fun h => nomatch h) (n := n + 2)
      (by simp only [List.length_cons, List.length_nil]; omega) []
      ("." :: String.ofList ('#' :: hexChars t) :: ")" :: rest)
    have hlast := htail.parses (n + 1) (")" :: rest)
      (by simp only [List.length_cons, List.length_nil]; omega)
    have hclose : ("." : String) ≠ ")" := by decide
    rw [List.singleton_append] at hitem hlast
    have hlist : parseOne (n + 4) (["(", String.ofList ('#' :: hexChars h), ".",
        String.ofList ('#' :: hexChars t), ")"] ++ rest) =
        parseItems (n + 2 + 1) [] (String.ofList ('#' :: hexChars h) :: "." ::
          String.ofList ('#' :: hexChars t) :: ")" :: rest) := by
      rw [List.cons_append, parseOne, if_pos rfl]
      rfl
    rw [hlist, hitem, parseItems, if_neg hclose, if_pos rfl, if_neg (List.cons_ne_nil _ _), hlast]
    rfl
  first := ⟨"(", _, rfl, by decide, fun h => absurd h (by decide)⟩

theorem not_continues_of_named (h : e.named = true) : e.continues blake3 = false := by
  obtain ⟨hash, hhash⟩ := Option.isSome_iff_exists.mp h
  simp [Expr.continues, hhash]

/-- Where a list breaks off, its tail is a symbol. -/
theorem continues_link_of_named (h : y.named = true) :
    (link x y).continues blake3 = true := by
  cases y with
  | link v head tail => simp [Expr.continues, link, Expr.base, Expr.headHash?, Expr.headChild,
      Child.hash?, Expr.builtinTag, Expr.tailChild]
  | _ => cases h

/-- What was read is printed so that it is read again as the same, in a list and on its own. -/
theorem Readable.printed (h : Readable e) (hfloat : e.hasFloat = false)
    (hsymbols : ∀ s ∈ e.symbols, Unquoted s) :
    (e.merges = false → ∃ cs tokens, Printed blake3 e cs tokens) ∧
      ∃ parts tokens, PrintedTail blake3 e parts tokens := by
  have hatomic : ∀ {e : Expr} {cs : List Char} {tokens : List String}, Printed blake3 e cs tokens →
      e ≠ .nil → e.continues blake3 = false →
      (e.merges = false → ∃ cs tokens, Printed blake3 e cs tokens) ∧
        ∃ parts tokens, PrintedTail blake3 e parts tokens :=
    fun h hnil hcontinues => ⟨fun _ => ⟨_, _, h⟩, _, _, printedTail_of_printed h hnil hcontinues⟩
  induction h with
  | nil => exact ⟨fun _ => ⟨_, _, printed_nil⟩, _, _, printedTail_nil⟩
  | @symbol s hatom hchars =>
    have hs := hsymbols s (List.mem_singleton_self s)
    exact hatomic (printed_symbol hatom hchars hs) (fun h => nomatch h) rfl
  | bytes b => exact hatomic (printed_bytes b) (fun h => nomatch h) rfl
  | int n => exact hatomic (printed_int n) (fun h => nomatch h) rfl
  | str h => exact hatomic (printed_str h) (fun h => nomatch h) rfl
  | float bits => cases hfloat
  | ref hlen => exact hatomic (printed_ref hlen) (fun h => nomatch h) (not_continues_of_named rfl)
  | pair hh ht =>
    exact hatomic (printed_pair hh ht) (fun h => nomatch h) (not_continues_of_named rfl)
  | @link x y hx hdot hwhole hy ihx ihy =>
    have hfloats : x.hasFloat = false ∧ y.hasFloat = false := Bool.or_eq_false_iff.mp hfloat
    have hxs : ∀ s ∈ x.symbols, Unquoted s :=
      fun s hs => hsymbols s (List.mem_append_left _ hs)
    have hys : ∀ s ∈ y.symbols, Unquoted s :=
      fun s hs => hsymbols s (List.mem_append_right _ hs)
    obtain ⟨cs, tokens, hprinted⟩ := (ihx hfloats.1 hxs).1 hwhole
    obtain ⟨parts, tail, htail⟩ := (ihy hfloats.2 hys).2
    have hlist := fun h => printed_link hprinted hdot htail h
    refine ⟨fun h => ⟨_, _, hlist h⟩, ?_⟩
    by_cases hcontinues : (Astreum.link x y).continues blake3 = true
    · exact ⟨_, _, printedTail_link hprinted hdot htail hcontinues⟩
    · have hmerges : (Astreum.link x y).merges = false := by
        have hnamed : y.named = false :=
          Bool.eq_false_iff.mpr fun h => hcontinues (continues_link_of_named h)
        exact Bool.and_eq_false_iff.mpr (.inr hnamed)
      exact ⟨_, _, printedTail_of_printed (hlist hmerges) (fun h => nomatch h)
        (Bool.eq_false_iff.mpr hcontinues)⟩

end Readable

end Astreum

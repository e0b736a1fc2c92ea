import Astreum.PrintedText

namespace Astreum

section Shapes

open Python

/-- A token that the tokenizer gives. -/
inductive TokenShape : String → Prop
  | paren {ch : Char} (h : ch = '(' ∨ ch = ')') : TokenShape (String.ofList [ch])
  | opened {body : List Char} (h : '"' ∉ body) : TokenShape (String.ofList ('"' :: body))
  | closed {body : List Char} (h : '"' ∉ body) : TokenShape (String.ofList ('"' :: body ++ ['"']))
  | atom {cs : List Char} (h : ∀ ch ∈ cs, atomStop ch = false) : TokenShape (String.ofList cs)

variable {cs cur rest : List Char} {ch : Char} {t : String}

theorem tokenShape_flush (h : ∀ ch ∈ cur, atomStop ch = false) (ht : t ∈ flush cur) :
    TokenShape t := by
  rw [flush] at ht
  split at ht
  · cases ht
  · rw [List.mem_singleton.mp ht]
    exact .atom fun ch hch => h ch (List.mem_reverse.mp hch)

theorem atomStop_takeAtom (h : ch ∈ (takeAtom cs).1) : atomStop ch = false := by
  fun_induction takeAtom cs with
  | case3 c cs hhash hstop ih =>
    rcases List.mem_cons.mp h with rfl | h
    · exact Bool.eq_false_iff.mpr hstop
    · exact ih h
  | _ => cases h

theorem head_skipBlank {n : Nat} (hn : cs.length ≤ n) (h : skipBlank n cs = ch :: rest) :
    isSpace ch = false ∧ ch ≠ ';' := by
  induction n generalizing cs with
  | zero =>
    rw [List.eq_nil_of_length_eq_zero (Nat.le_zero.mp hn)] at h
    cases h
  | succ n ih =>
    cases cs with
    | nil => cases h
    | cons c cs =>
      rw [List.length_cons] at hn
      rw [skipBlank] at h
      split at h
      · exact ih (by omega) h
      rename_i hspace
      split at h
      · have hline : (skipLine cs).length ≤ cs.length :=
          (List.dropWhile_suffix _).sublist.length_le
        exact ih (by omega) h
      · rename_i hcomment
        cases h
        exact ⟨Bool.eq_false_iff.mpr hspace, hcomment⟩

theorem quote_not_mem_span (cs : List Char) : '"' ∉ (cs.span (· != '"')).1 := by
  rw [List.span_eq_takeWhile_dropWhile]
  intro h
  have hall := List.all_eq_true.mp (List.all_takeWhile (p := (· != '"')) (l := cs)) '"' h
  exact absurd hall (by decide)

theorem tokenizeFrom_eq (n : Nat) (cur cs : List Char) :
    tokenizeFrom (n + 1) cur cs =
      if (skipBlank cs.length cs).length = cs.length then
        tokenizeAt n cur (skipBlank cs.length cs)
      else flush cur ++ tokenizeAt n [] (skipBlank cs.length cs) := by
  rw [tokenizeFrom]
  by_cases h : (skipBlank cs.length cs).length = cs.length
  · rw [if_pos h, if_pos h]
    rfl
  · rw [if_neg h, if_neg h]
    rfl

theorem tokenShape_tokenizeFrom (n : Nat) (hcur : ∀ ch ∈ cur, atomStop ch = false)
    (ht : t ∈ tokenizeFrom n cur cs) : TokenShape t := by
  induction n generalizing cur cs with
  | zero => exact tokenShape_flush hcur ht
  | succ n ih =>
    have hnone : ∀ ch ∈ ([] : List Char), atomStop ch = false :=
      fun _ h => absurd h List.not_mem_nil
    have hat : ∀ {cur rest : List Char}, (∀ ch ∈ cur, atomStop ch = false) →
        (∀ ch tail, rest = ch :: tail → isSpace ch = false ∧ ch ≠ ';') →
        t ∈ tokenizeAt n cur rest → TokenShape t := by
      intro cur rest hcur hhead ht
      rw [tokenizeAt.eq_def] at ht
      split at ht
      · exact tokenShape_flush hcur ht
      · rename_i tail
        rcases List.mem_append.mp ht with ht | ht
        · exact tokenShape_flush hcur ht
        rcases List.mem_cons.mp ht with rfl | ht
        · split
          · rw [List.append_nil]
            exact .opened (quote_not_mem_span tail)
          · exact .closed (quote_not_mem_span tail)
        · exact ih hnone ht
      · rename_i tail
        have hopen : TokenShape "(" := .paren (.inl rfl)
        have hclose : TokenShape ")" := .paren (.inr rfl)
        have hquote : TokenShape (String.ofList ['\'']) :=
          .atom fun ch hch => List.mem_singleton.mp hch ▸ by decide
        split at ht
        · split at ht
          · simp only [List.mem_append, List.mem_cons] at ht
            rcases ht with (ht | rfl | rfl | ht) | rfl | ht
            · exact tokenShape_flush hcur ht
            · exact hopen
            · exact hquote
            · exact ih hnone ht
            · exact hclose
            · exact ih hnone ht
          · simp only [List.mem_append, List.mem_cons] at ht
            rcases ht with ht | rfl | rfl | rfl | rfl | ht
            · exact tokenShape_flush hcur ht
            · exact hopen
            · exact hquote
            · exact .atom fun ch hch => atomStop_takeAtom hch
            · exact hclose
            · exact ih hnone ht
        · simp only [List.mem_append, List.mem_cons] at ht
          rcases ht with ht | rfl | ht
          · exact tokenShape_flush hcur ht
          · exact hquote
          · exact ih hnone ht
      · rename_i ch tail hstring hquote
        split at ht
        · rename_i hparen
          rcases List.mem_append.mp ht with ht | ht
          · exact tokenShape_flush hcur ht
          rcases List.mem_cons.mp ht with rfl | ht
          · exact .paren hparen
          · exact ih hnone ht
        · rename_i hparen
          refine ih (fun c hc => ?_) ht
          rcases List.mem_cons.mp hc with rfl | hc
          · obtain ⟨hspace, hcomment⟩ := hhead _ _ rfl
            obtain ⟨hopen, hclose⟩ := not_or.mp hparen
            have hmem : c ∉ ['(', ')', '"', ';'] := by
              simp only [List.mem_cons, List.not_mem_nil, or_false, not_or]
              exact ⟨hopen, hclose, fun h => hstring (h ▸ rfl), hcomment⟩
            rw [atomStop, hspace, Bool.false_or]
            exact decide_eq_false hmem
          · exact hcur c hc
    have hblank : ∀ ch tail, skipBlank cs.length cs = ch :: tail → isSpace ch = false ∧ ch ≠ ';' :=
      fun ch tail h => head_skipBlank (Nat.le_refl _) h
    rw [tokenizeFrom_eq] at ht
    split at ht
    · exact hat hcur hblank ht
    · rcases List.mem_append.mp ht with ht | ht
      · exact tokenShape_flush hcur ht
      · exact hat hnone hblank ht

end Shapes

section Parsed

variable {e tail : Expr} {items : List Expr} {t : String} {tokens rest : List String}

/-- What can stand in a list. -/
structure Item (e : Expr) : Prop where
  readable : Readable e
  whole : e.merges = false
  dotless : e ≠ .symbol "."

theorem quote_not_mem_body {body : List Char} (ht : TokenShape t) (h : t.toList = '"' :: body) :
    '"' ∉ if (!body.isEmpty && body.getLast? == some '"') = true then body.dropLast else body := by
  cases ht with
  | paren hch =>
    rw [String.toList_ofList] at h
    rcases hch with rfl | rfl <;> exact absurd (List.cons.inj h).1 (by decide)
  | opened hbody =>
    rw [String.toList_ofList] at h
    rw [(List.cons.inj h).2] at hbody
    split
    · exact fun hmem => hbody ((List.dropLast_sublist _).subset hmem)
    · exact hbody
  | closed hbody =>
    rw [String.toList_ofList] at h
    rename_i inner
    have hinner : body = inner ++ ['"'] := (List.cons.inj h).2.symm
    rw [hinner, if_pos (by simp), List.dropLast_concat]
    exact hbody
  | atom hchars =>
    rw [String.toList_ofList] at h
    rw [h] at hchars
    exact absurd (hchars '"' List.mem_cons_self) (by decide)

theorem atomStop_of_shape (ht : TokenShape t) (hopen : t ≠ "(") (hclose : t ≠ ")")
    (hstring : ∀ body, t.toList ≠ '"' :: body) : ∀ ch ∈ t.toList, atomStop ch = false := by
  cases ht with
  | paren hch =>
    rcases hch with rfl | rfl
    · exact absurd rfl hopen
    · exact absurd rfl hclose
  | opened => exact absurd String.toList_ofList (hstring _)
  | closed => exact absurd String.toList_ofList (hstring _)
  | atom hchars =>
    rw [String.toList_ofList]
    exact hchars

theorem readable_parseAtom (ht : TokenShape t) (hopen : t ≠ "(") (hclose : t ≠ ")")
    (h : parseAtom t = .ok e) :
    Readable e ∧ e.merges = false ∧ (e = .symbol "." → t = "." ) := by
  have hwhole : ∀ {e : Expr}, Readable e → (∀ x y, e ≠ link x y) → (∀ s, e ≠ .symbol s) →
      Readable e ∧ e.merges = false ∧ (e = .symbol "." → t = ".") := by
    intro e he hlink hsymbol
    refine ⟨he, ?_, fun h => absurd h (hsymbol _)⟩
    cases he with
    | link hx hdot hwhole hy => exact absurd rfl (hlink _ _)
    | _ => rfl
  have hatom := h
  rw [parseAtom] at h
  split at h
  · cases h
    exact hwhole .nil (fun _ _ h => by cases h) fun _ h => by cases h
  simp only at h
  split at h
  · rename_i hex hcs
    split at h
    · cases h
    · rename_i hlen
      split at h
      · rename_i hash hhash
        cases h
        have hlength := length_bytesFromHex hhash
        have hcount : t.toList.length = 65 := not_not.mp hlen
        rw [hcs, List.length_cons] at hcount
        exact hwhole (.ref (by omega)) (fun _ _ h => by cases h) fun _ h => by cases h
      · cases h
  · rename_i body hcs
    cases h
    refine hwhole (.str ?_) (fun _ _ h => by cases h) fun _ h => by cases h
    rw [String.toList_ofList]
    exact quote_not_mem_body ht hcs
  · rename_i hstring
    split at h
    · split at h
      · cases h
        exact hwhole (.bytes _) (fun _ _ h => by cases h) fun _ h => by cases h
      · cases h
    split at h
    · cases h
      exact hwhole (.int _) (fun _ _ h => by cases h) fun _ h => by cases h
    split at h
    · cases h
      exact hwhole (.float _) (fun _ _ h => by cases h) fun _ h => by cases h
    · cases h
      refine ⟨.symbol hatom (atomStop_of_shape ht hopen hclose hstring), rfl, fun h => ?_⟩
      cases h
      rfl

theorem eq_link_of_named (h : e.named = true) : ∃ v hash c, e = .link v (.byHash hash) c := by
  cases e with
  | link v head c =>
    cases head with
    | byHash hash => exact ⟨v, hash, c, rfl⟩
    | _ => cases h
  | _ => cases h

theorem readable_foldr (hitems : ∀ x ∈ items, Item x) (htail : Readable tail) :
    Readable (items.foldr link tail) := by
  induction items with
  | nil => exact htail
  | cons x items ih =>
    have hx := hitems x List.mem_cons_self
    exact .link hx.readable hx.dotless hx.whole
      (ih fun y hy => hitems y (List.mem_cons_of_mem _ hy))

theorem named_foldr (htail : tail.named = false ∨ items ≠ []) :
    (items.foldr link tail).named = false := by
  cases items with
  | nil => exact htail.resolve_right fun h => h rfl
  | cons x items => rfl

theorem item_foldr {x : Expr} (hitems : ∀ y ∈ x :: items, Item y) (htail : Readable tail)
    (h : ∀ y, x :: items = [y] → ¬(y.named = true ∧ tail.named = true)) :
    Item ((x :: items).foldr link tail) := by
  refine ⟨readable_foldr hitems htail, ?_, fun h => nomatch h⟩
  have hmerges : ((x :: items).foldr link tail).merges =
      (x.named && (items.foldr link tail).named) := rfl
  rw [hmerges]
  by_cases hitems : items = []
  · subst hitems
    have hboth := h x rfl
    rw [Bool.eq_false_iff]
    exact fun hmerge => hboth (Bool.and_eq_true_iff.mp hmerge)
  · rw [named_foldr (.inr hitems), Bool.and_false]

theorem item_buildChain (hitems : ∀ x ∈ items, Item x) : Item (buildChain items) := by
  rw [buildChain]
  split
  · have hquote : Readable (.symbol "'") := .symbol (by decide) (forall_atomStop (by decide))
    exact ⟨.link hquote (by decide) rfl .nil, rfl, fun h => by cases h⟩
  · rename_i hne
    rcases items with - | ⟨x, items⟩
    · exact absurd rfl hne
    · exact item_foldr hitems .nil fun _ _ h => by cases h.2

theorem readable_hash {v : Val} {h : Bytes} {c : Child} (he : Readable (.link v (.byHash h) c)) :
    h.length = 32 := by
  cases he with
  | ref hlen => exact hlen
  | pair hh ht => exact hh

theorem item_dottedPair (hne : items ≠ []) (hitems : ∀ x ∈ items, Item x) (htail : Readable tail) :
    Item (dottedPair items tail) := by
  rw [dottedPair.eq_def]
  split
  · have hfirst := readable_hash (hitems _ List.mem_cons_self).readable
    exact ⟨.pair hfirst (readable_hash htail), rfl, fun h => by cases h⟩
  · rename_i hpair
    rcases items with - | ⟨x, items⟩
    · exact absurd rfl hne
    refine item_foldr hitems htail fun y hy hboth => ?_
    obtain ⟨hx, htail⟩ := hboth
    obtain ⟨v, h, c, rfl⟩ := eq_link_of_named hx
    obtain ⟨v', h', c', rfl⟩ := eq_link_of_named htail
    exact hpair v h c v' h' c' hy rfl

/-- What the reader gives is readable. -/
theorem readable_parse (n : Nat) :
    (∀ tokens : List String, (∀ t ∈ tokens, TokenShape t) → ∀ e rest,
      parseOne n tokens = .ok (e, rest) → (∀ t ∈ rest, TokenShape t) ∧ Readable e ∧
        e.merges = false ∧ (e = .symbol "." → tokens.head? = some ".")) ∧
    ∀ (items : List Expr) (tokens : List String), (∀ x ∈ items, Item x) →
      (∀ t ∈ tokens, TokenShape t) → ∀ e rest,
      parseItems n items tokens = .ok (e, rest) → (∀ t ∈ rest, TokenShape t) ∧ Item e := by
  induction n with
  | zero => exact ⟨fun _ _ _ _ h => (nomatch h), fun _ _ _ _ _ _ h => (nomatch h)⟩
  | succ n ih =>
    refine ⟨fun tokens htokens e rest h => ?_, fun items tokens hitems htokens e rest h => ?_⟩
    · rcases tokens with - | ⟨tok, toks⟩
      · cases h
      have htoks : ∀ t ∈ toks, TokenShape t := fun t ht => htokens t (List.mem_cons_of_mem _ ht)
      rw [parseOne] at h
      split at h
      · obtain ⟨hrest, hitem⟩ := ih.2 [] toks (fun _ h => absurd h List.not_mem_nil) htoks e rest h
        exact ⟨hrest, hitem.readable, hitem.whole, fun h => absurd h hitem.dotless⟩
      split at h
      · cases h
      · obtain ⟨e', hatom, h⟩ := except_bind_eq_ok.mp h
        cases h
        rename_i hopen hclose
        obtain ⟨hreadable, hwhole, hdot⟩ :=
          readable_parseAtom (htokens tok List.mem_cons_self) hopen hclose hatom
        exact ⟨htoks, hreadable, hwhole, fun h => congrArg some (hdot h)⟩
    · rcases tokens with - | ⟨tok, toks⟩
      · cases h
      have htoks : ∀ t ∈ toks, TokenShape t := fun t ht => htokens t (List.mem_cons_of_mem _ ht)
      rw [parseItems] at h
      split at h
      · cases h
        exact ⟨htoks, item_buildChain fun x hx => hitems x (List.mem_reverse.mp hx)⟩
      split at h
      · split at h
        · cases h
        rename_i hne
        obtain ⟨⟨tail, toks'⟩, hone, h⟩ := except_bind_eq_ok.mp h
        obtain ⟨htoks', htail, -⟩ := ih.1 toks htoks tail toks' hone
        simp only at h
        split at h
        · cases h
          exact ⟨fun t ht => htoks' t (List.mem_cons_of_mem _ ht),
            item_dottedPair (List.reverse_ne_nil_iff.mpr hne)
              (fun x hx => hitems x (List.mem_reverse.mp hx)) htail⟩
        · cases h
      · rename_i hclose hdot
        obtain ⟨⟨item, toks'⟩, hone, h⟩ := except_bind_eq_ok.mp h
        obtain ⟨htoks', hreadable, hwhole, hsymbol⟩ := ih.1 (tok :: toks) htokens item toks' hone
        refine ih.2 (item :: items) toks' (fun x hx => ?_) htoks' e rest h
        rcases List.mem_cons.mp hx with rfl | hx
        · exact ⟨hreadable, hwhole, fun h => hdot (Option.some.inj (hsymbol h))⟩
        · exact hitems x hx

end Parsed

section RoundTrip

variable {source : String} {e : Expr}

theorem readable_parseText (h : parseText source = .ok e) : Readable e ∧ e.merges = false := by
  rw [parseText] at h
  simp only at h
  split at h
  · cases h
  obtain ⟨⟨e', rest⟩, hparse, h⟩ := except_bind_eq_ok.mp h
  cases h
  have hnone : ∀ ch ∈ ([] : List Char), atomStop ch = false := fun _ h => absurd h List.not_mem_nil
  have hread := (readable_parse _).1 (tokenize source)
    (fun t ht => tokenShape_tokenizeFrom _ hnone ht) e' rest hparse
  exact ⟨hread.2.1, hread.2.2.1⟩

theorem parseText_of_printed {blake3 : Bytes → Bytes} {cs : List Char} {tokens : List String}
    (h : Printed blake3 e cs tokens) : parseText (String.ofList cs) = .ok e := by
  have hreads := h.reads [] [] trivial reads_nil
  rw [List.append_nil, List.append_nil] at hreads
  obtain ⟨tok, toks, htokens, -⟩ := h.first
  have hparse := h.parses (2 * tokens.length + 2) [] (by omega)
  rw [List.append_nil] at hparse
  rw [parseText, hreads.tokenize]
  simp only
  rw [if_neg (by rw [htokens]; exact List.cons_ne_nil _ _), hparse]
  rfl

end RoundTrip

end Astreum

import Astreum.Parser
import Astreum.Operators

namespace Astreum

section Printing

/-- `bytes.hex()`. -/
def hexChars (b : Bytes) : List Char :=
  b.flatMap fun x => [Nat.digitChar (x.toNat / 16), Nat.digitChar (x.toNat % 16)]

/-- `" ".join(parts)`, after the first part. -/
def spaced (parts : List (List Char)) : List Char := parts.flatMap (' ' :: ·)

variable (blake3 : Bytes → Bytes)

/-- Whether `_repr_link` goes on with the tail as more of the same list. -/
def Expr.continues (e : Expr) : Bool :=
  e.base = .link ∧ e.headHash? = none ∧ e.builtinTag blake3 = "link"

mutual

/-- `__repr__`, with `_repr_link` in place. -/
def Expr.repr : Expr → Py (List Char)
  | .nil => .ok ['n', 'i', 'l']
  | .symbol s => .ok s.toList
  | .bytes b => .ok ('0' :: 'x' :: hexChars b)
  | .bytesOf _ => .error .attributeError
  | .link v h t => do
    let tag := (Expr.link v h t).builtinTag blake3
    if v ≠ .none ∧ tag = "int" then return v.text.toList
    else if v ≠ .none ∧ tag ∈ floatTags then
      return (Python.textOfFloat (← exprToFp64 tag (.link v h t))).toList
    else if v ≠ .none ∧ tag = "str" then return '"' :: v.text.toList ++ ['"']
    else if h.hash?.isSome ∧ t = .none then h.reprHead
    else return '(' :: (← h.reprHead) ++ spaced (← t.reprTail) ++ [')']

/-- The part for the head of a link. -/
def Child.reprHead : Child → Py (List Char)
  | .none => .ok ['n', 'i', 'l']
  | .byHash h => .ok ('#' :: hexChars h)
  | .loaded e => e.repr

/-- The parts for the tail of a link. -/
def Child.reprTail : Child → Py (List (List Char))
  | .none => .ok []
  | .byHash h => .ok ['.' :: ' ' :: '#' :: hexChars h]
  | .loaded e =>
    if e = .nil then .ok []
    else if e.continues blake3 then e.reprParts
    else do return ['.' :: ' ' :: (← e.repr)]

/-- The parts from a link on. -/
def Expr.reprParts : Expr → Py (List (List Char))
  | .link _ h t => do return (← h.reprHead) :: (← t.reprTail)
  | _ => .ok []

end

end Printing

section Reading

open Python

/-- The tokens of a text, for any bound that suffices. -/
def Reads (cs : List Char) (tokens : List String) : Prop :=
  ∀ n, cs.length < n → tokenizeFrom n [] cs = tokens

/-- What may follow an atom. -/
def Boundary : List Char → Prop
  | [] => True
  | ch :: _ => ch = ' ' ∨ ch = ')'

/-- The characters of an atom outside quotes. -/
def plainChar (ch : Char) : Prop := atomStop ch = false ∧ ch ≠ '\''

variable {cs rest body w : List Char} {ch : Char} {tokens : List String}

theorem forall_atomStop (h : cs.all (!atomStop ·) = true) : ∀ ch ∈ cs, atomStop ch = false :=
  fun ch hch => by simpa using List.all_eq_true.mp h ch hch

theorem forall_plainChar (h : cs.all (!atomStop ·) = true) (hquote : cs.all (· != '\'') = true) :
    ∀ ch ∈ cs, plainChar ch :=
  fun ch hch => ⟨forall_atomStop h ch hch, bne_iff_ne.mp (List.all_eq_true.mp hquote ch hch)⟩

theorem Reads.tokenize (h : Reads cs tokens) : tokenize (String.ofList cs) = tokens := by
  rw [Astreum.tokenize, String.toList_ofList, String.length_ofList]
  exact h _ (Nat.lt_succ_self _)

theorem reads_nil : Reads [] [] := by
  intro n hn
  obtain ⟨n, rfl⟩ : ∃ m, n = m + 1 := ⟨n - 1, by omega⟩
  rfl

theorem skipBlank_of_not (n : Nat) (hspace : isSpace ch = false) (hcomment : ch ≠ ';') :
    skipBlank n (ch :: cs) = ch :: cs := by
  cases n with
  | zero => rfl
  | succ n => rw [skipBlank, hspace, if_neg (by decide), if_neg hcomment]

theorem plainChar.not_space (h : plainChar ch) : isSpace ch = false := by
  have h' := h.1
  rw [atomStop, Bool.or_eq_false_iff] at h'
  exact h'.1

theorem plainChar.not_mem (h : plainChar ch) : ch ∉ ['(', ')', '"', ';'] := by
  have h' := h.1
  rw [atomStop, Bool.or_eq_false_iff] at h'
  exact of_decide_eq_false h'.2

theorem length_skipBlank_le (n : Nat) (cs : List Char) : (skipBlank n cs).length ≤ cs.length := by
  induction n generalizing cs with
  | zero => cases cs <;> exact Nat.le_refl _
  | succ n ih =>
    cases cs with
    | nil => exact Nat.le_refl _
    | cons ch cs =>
      rw [skipBlank]
      split
      · exact (ih cs).trans (Nat.le_succ _)
      split
      · have hline : (skipLine cs).length ≤ cs.length :=
          (List.dropWhile_suffix _).sublist.length_le
        exact ((ih _).trans hline).trans (Nat.le_succ _)
      · exact Nat.le_refl _

/-- What the tokenizer does at a character that is neither blank nor the start of a comment. -/
def tokenizeAt (n : Nat) (cur : List Char) : List Char → List String
  | [] => flush cur
  | '"' :: cs =>
    let (body, cs) := cs.span (· != '"')
    let close := if cs = [] then [] else ['"']
    flush cur ++ String.ofList ('"' :: body ++ close) :: tokenizeFrom n [] (cs.drop 1)
  | '\'' :: cs =>
    if quotes cs then
      match cs with
      | '(' :: _ =>
        let (inner, cs) := takeParens cs.length 0 cs
        flush cur ++ "(" :: "'" :: tokenizeFrom n [] inner ++ ")" :: tokenizeFrom n [] cs
      | cs =>
        let (atom, cs) := takeAtom cs
        flush cur ++ "(" :: "'" :: String.ofList atom :: ")" :: tokenizeFrom n [] cs
    else flush cur ++ "'" :: tokenizeFrom n [] cs
  | ch :: cs =>
    if ch = '(' ∨ ch = ')' then flush cur ++ String.ofList [ch] :: tokenizeFrom n [] cs
    else tokenizeFrom n (ch :: cur) cs

theorem tokenizeFrom_of_not_blank (n : Nat) (cur : List Char)
    (h : skipBlank cs.length cs = cs) : tokenizeFrom (n + 1) cur cs = tokenizeAt n cur cs := by
  rw [tokenizeFrom, h]
  simp only [if_true, List.nil_append]
  rfl

theorem tokenizeFrom_plain (h : plainChar ch) (n : Nat) (cur cs : List Char) :
    tokenizeFrom (n + 1) cur (ch :: cs) = tokenizeFrom n (ch :: cur) cs := by
  have hmem := h.not_mem
  simp only [List.mem_cons, List.not_mem_nil, or_false, not_or] at hmem
  obtain ⟨hopen, hclose, hstring, hcomment⟩ := hmem
  rw [tokenizeFrom_of_not_blank n cur (skipBlank_of_not _ h.not_space hcomment), tokenizeAt.eq_def]
  split
  · rename_i heq
    cases heq
  · rename_i heq
    exact absurd (List.cons.inj heq).1 hstring
  · rename_i heq
    exact absurd (List.cons.inj heq).1 h.2
  · rename_i heq
    obtain ⟨rfl, rfl⟩ := List.cons.inj heq
    rw [if_neg (not_or.mpr ⟨hopen, hclose⟩)]

theorem tokenizeFrom_word (hw : ∀ ch ∈ w, plainChar ch) (n : Nat) (cur cs : List Char) :
    tokenizeFrom (n + w.length) cur (w ++ cs) = tokenizeFrom n (w.reverse ++ cur) cs := by
  induction w generalizing cur with
  | nil => rfl
  | cons ch w ih =>
    have hlen : n + (ch :: w).length = n + w.length + 1 := rfl
    rw [hlen, List.cons_append, tokenizeFrom_plain (hw ch List.mem_cons_self),
      ih fun ch' h => hw ch' (List.mem_cons_of_mem _ h), List.reverse_cons, List.append_assoc]
    rfl

theorem tokenizeFrom_space (n : Nat) (cur cs : List Char) :
    tokenizeFrom (n + 1) cur (' ' :: cs) = flush cur ++ tokenizeFrom (n + 1) [] cs := by
  have hskip : skipBlank (' ' :: cs).length (' ' :: cs) = skipBlank cs.length cs := by
    rw [List.length_cons, skipBlank, if_pos (by decide)]
  have hle := length_skipBlank_le cs.length cs
  have hne : (skipBlank cs.length cs).length ≠ (' ' :: cs).length := by
    rw [List.length_cons]
    omega
  rw [tokenizeFrom, hskip, tokenizeFrom]
  simp only [if_neg hne]
  have hflush : (if (skipBlank cs.length cs).length = cs.length then
      (([] : List String), ([] : List Char)) else (flush [], [])) = ([], []) := by
    split <;> rfl
  rw [hflush]
  rfl

theorem tokenizeFrom_boundary (h : Boundary cs) (n : Nat) (cur : List Char) :
    tokenizeFrom (n + 1) cur cs = flush cur ++ tokenizeFrom (n + 1) [] cs := by
  cases cs with
  | nil =>
    rw [tokenizeFrom_of_not_blank n cur rfl, tokenizeFrom_of_not_blank n [] rfl]
    exact (List.append_nil _).symm
  | cons ch cs =>
    rcases h with rfl | rfl
    · rw [tokenizeFrom_space, tokenizeFrom_space n []]
      rfl
    · have hskip : skipBlank (')' :: cs).length (')' :: cs) = ')' :: cs :=
        skipBlank_of_not _ (by decide) (by decide)
      rw [tokenizeFrom_of_not_blank n cur hskip, tokenizeFrom_of_not_blank n [] hskip]
      rfl

theorem reads_word (hne : w ≠ []) (hw : ∀ ch ∈ w, plainChar ch) (hrest : Boundary rest)
    (h : Reads rest tokens) : Reads (w ++ rest) (String.ofList w :: tokens) := by
  intro n hn
  rw [List.length_append] at hn
  obtain ⟨m, rfl⟩ : ∃ m, n = m + 1 + w.length := ⟨n - 1 - w.length, by omega⟩
  rw [tokenizeFrom_word hw, List.append_nil, tokenizeFrom_boundary hrest, h _ (by omega), flush,
    if_neg (List.reverse_ne_nil_iff.mpr hne), List.reverse_reverse]
  rfl

theorem reads_space (h : Reads cs tokens) : Reads (' ' :: cs) tokens := by
  intro n hn
  rw [List.length_cons] at hn
  obtain ⟨n, rfl⟩ : ∃ m, n = m + 1 := ⟨n - 1, by omega⟩
  rw [tokenizeFrom_space, h _ (by omega)]
  rfl

theorem reads_paren (hch : ch = '(' ∨ ch = ')') (h : Reads cs tokens) :
    Reads (ch :: cs) (String.ofList [ch] :: tokens) := by
  intro n hn
  rw [List.length_cons] at hn
  obtain ⟨n, rfl⟩ : ∃ m, n = m + 1 := ⟨n - 1, by omega⟩
  rcases hch with rfl | rfl
  · rw [tokenizeFrom_of_not_blank n [] (skipBlank_of_not _ (by decide) (by decide)), tokenizeAt,
      if_pos (.inl rfl), h _ (by omega)]
    · rfl
    · decide
    · decide
  · rw [tokenizeFrom_of_not_blank n [] (skipBlank_of_not _ (by decide) (by decide)), tokenizeAt,
      if_pos (.inr rfl), h _ (by omega)]
    · rfl
    · decide
    · decide

theorem span_quote (hbody : '"' ∉ body) (rest : List Char) :
    (body ++ '"' :: rest).span (· != '"') = (body, '"' :: rest) := by
  induction body with
  | nil => rfl
  | cons ch body ih =>
    obtain ⟨hch, hbody⟩ := not_or.mp (mt List.mem_cons.mpr hbody)
    have hne : (ch != '"') = true := bne_iff_ne.mpr (Ne.symm hch)
    have ih' := ih hbody
    rw [List.span_eq_takeWhile_dropWhile] at ih' ⊢
    rw [List.cons_append, List.takeWhile_cons, List.dropWhile_cons, hne]
    simp only [if_true]
    rw [(Prod.mk.inj ih').1, (Prod.mk.inj ih').2]

theorem reads_string (hbody : '"' ∉ body) (h : Reads rest tokens) :
    Reads ('"' :: body ++ '"' :: rest) (String.ofList ('"' :: body ++ ['"']) :: tokens) := by
  intro n hn
  rw [List.cons_append, List.length_cons, List.length_append, List.length_cons] at hn
  obtain ⟨n, rfl⟩ : ∃ m, n = m + 1 := ⟨n - 1, by omega⟩
  rw [List.cons_append,
    tokenizeFrom_of_not_blank n [] (skipBlank_of_not _ (by decide) (by decide)), tokenizeAt,
    span_quote hbody]
  simp only [List.drop_succ_cons, List.drop_zero, h n (by omega)]
  rfl

theorem reads_quote (hrest : Boundary rest) (h : Reads rest tokens) :
    Reads ('\'' :: rest) ("'" :: tokens) := by
  intro n hn
  rw [List.length_cons] at hn
  obtain ⟨n, rfl⟩ : ∃ m, n = m + 1 := ⟨n - 1, by omega⟩
  have hquotes : quotes rest = false := by
    cases rest with
    | nil => rfl
    | cons ch rest => rcases hrest with rfl | rfl <;> rfl
  rw [tokenizeFrom_of_not_blank n [] (skipBlank_of_not _ (by decide) (by decide)), tokenizeAt,
    hquotes, h _ (by omega)]
  · rfl
  · rintro tail rfl
    rcases hrest with h | h <;> exact absurd h (by decide)

end Reading

section Numerals

open Python

theorem hexDigit?_digitChar {k : Nat} (h : k < 16) : hexDigit? (Nat.digitChar k) = some k := by
  have hall : ∀ k < 16, hexDigit? (Nat.digitChar k) = some k := by decide
  exact hall k h

theorem bytesFromHex_hexChars (b : Bytes) : bytesFromHex (hexChars b) = some b := by
  induction b with
  | nil => rfl
  | cons x b ih =>
    have hx := x.toNat_lt
    have hcons : hexChars (x :: b) =
        Nat.digitChar (x.toNat / 16) :: Nat.digitChar (x.toNat % 16) :: hexChars b := rfl
    rw [hcons, bytesFromHex, hexDigit?_digitChar (by omega), hexDigit?_digitChar (by omega), ih]
    have hdigits : 16 * (x.toNat / 16) + x.toNat % 16 = x.toNat := by omega
    simp only [Option.bind_eq_bind, Option.bind_some, hdigits, UInt8.ofNat_toNat]
    rfl

theorem length_bytesFromHex {cs : List Char} {b : Bytes} (h : bytesFromHex cs = some b) :
    cs.length = 2 * b.length := by
  fun_induction bytesFromHex cs generalizing b with
  | case1 => cases h; rfl
  | case2 x y cs ih =>
    simp only [Option.bind_eq_bind, Option.bind_eq_some_iff] at h
    obtain ⟨_, -, _, -, b', hb', heq⟩ := h
    cases heq
    simp only [List.length_cons, ih hb']
    omega
  | case3 => cases h

theorem length_hexChars (b : Bytes) : (hexChars b).length = 2 * b.length :=
  length_bytesFromHex (bytesFromHex_hexChars b)

theorem strip_of_not_space {cs : List Char} (h : ∀ ch ∈ cs, isSpace ch = false) :
    strip cs = cs := by
  have hdrop : ∀ cs : List Char, (∀ ch ∈ cs, isSpace ch = false) → cs.dropWhile isSpace = cs := by
    intro cs h
    cases cs with
    | nil => rfl
    | cons ch cs => rw [List.dropWhile_cons, h ch List.mem_cons_self, if_neg (by decide)]
  rw [strip, hdrop cs h, hdrop _ fun ch hch => h ch (List.mem_reverse.mp hch), List.reverse_reverse]

theorem digits?_of_isDigit {cs : List Char} (hne : cs ≠ []) (h : ∀ ch ∈ cs, ch.isDigit = true) :
    digits? cs = some (cs.map (·.toNat - 48)) := by
  induction cs with
  | nil => exact absurd rfl hne
  | cons ch cs ih =>
    cases cs with
    | nil => rw [digits?, if_pos (h ch List.mem_cons_self)]; rfl
    | cons next cs =>
      have hnext := h next (List.mem_cons_of_mem _ List.mem_cons_self)
      rw [digits?, if_pos (h ch List.mem_cons_self),
        ih (List.cons_ne_nil _ _) fun c hc => h c (List.mem_cons_of_mem _ hc)]
      · rfl
      · exact fun h => nomatch h
      · intro cs' heq
        rw [(List.cons.inj heq).1] at hnext
        exact absurd hnext (by decide)

theorem natOfDigits_toDigits (n : Nat) :
    natOfDigits ((Nat.toDigits 10 n).map (·.toNat - 48)) = n := by
  have h := Nat.ofDigitChars_ten_toDigits (n := n)
  rw [Nat.ofDigitChars_eq_foldl] at h
  rw [natOfDigits, List.foldl_map]
  exact h
theorem toList_toString (n : Int) : (toString n).toList =
    if n < 0 then '-' :: Nat.toDigits 10 n.natAbs else Nat.toDigits 10 n.natAbs := by
  cases n with
  | ofNat n => 
    rw [if_neg (by simp)]
    exact Nat.toList_repr
  | negSucc n =>
    rw [if_pos (Int.negSucc_lt_zero n)]
    have h : toString (Int.negSucc n) = "-" ++ Nat.repr (n + 1) := rfl
    rw [h, String.toList_append, Nat.toList_repr]
    rfl
theorem mem_of_isDigit {ch : Char} (h : ch.isDigit = true) :
    ch ∈ ['0', '1', '2', '3', '4', '5', '6', '7', '8', '9'] := by
  have hall : ∀ k < 10,
      Char.ofNat (48 + k) ∈ ['0', '1', '2', '3', '4', '5', '6', '7', '8', '9'] := by decide
  have hlow : 48 ≤ ch.toNat := by
    have h' := (Bool.and_eq_true_iff.mp h).1
    exact UInt32.le_iff_toNat_le.mp (of_decide_eq_true h')
  have hhigh : ch.toNat ≤ 57 := by
    have h' := (Bool.and_eq_true_iff.mp h).2
    exact UInt32.le_iff_toNat_le.mp (of_decide_eq_true h')
  have hmem := hall (ch.toNat - 48) (by omega)
  rw [Nat.add_sub_cancel' hlow, Char.ofNat_toNat] at hmem
  exact hmem

/-- The characters of a number. -/
def numeralChars : List Char := ['-', '0', '1', '2', '3', '4', '5', '6', '7', '8', '9']

theorem mem_numeralChars {n : Int} {ch : Char} (h : ch ∈ (toString n).toList) :
    ch ∈ numeralChars := by
  have hdigit : ∀ ch ∈ Nat.toDigits 10 n.natAbs, ch ∈ numeralChars := fun ch hch =>
    List.mem_cons_of_mem _
      (mem_of_isDigit (Nat.isDigit_of_mem_toDigits (by decide) (by decide) hch))
  rw [toList_toString] at h
  split at h
  · rcases List.mem_cons.mp h with rfl | h
    · exact List.mem_cons_self
    · exact hdigit ch h
  · exact hdigit ch h

/-- A number is read as it was printed. -/
theorem intOfText_toString (n : Int) : intOfText (toString n) = .ok n := by
  have hdigit : ∀ ch ∈ Nat.toDigits 10 n.natAbs, ch.isDigit = true :=
    fun ch hch => Nat.isDigit_of_mem_toDigits (by decide) (by decide) hch
  have hspace : numeralChars.all (!isSpace ·) = true := by decide
  have hspaces : ∀ ch ∈ (toString n).toList, isSpace ch = false := fun ch hch => by
    simpa using List.all_eq_true.mp hspace ch (mem_numeralChars hch)
  have hdigits := digits?_of_isDigit Nat.toDigits_ne_nil hdigit
  rw [intOfText, strip_of_not_space hspaces, toList_toString]
  by_cases hneg : n < 0
  · rw [if_pos hneg, signed?, hdigits]
    simp only [Functor.map, Option.map_some, natOfDigits_toDigits]
    have habs : -(n.natAbs : Int) = n := by omega
    exact congrArg Except.ok habs
  · rw [if_neg hneg]
    have hplain : signed? Int.neg (fun cs => (fun ds => (natOfDigits ds : Int)) <$> digits? cs)
        (Nat.toDigits 10 n.natAbs) =
        (fun ds => (natOfDigits ds : Int)) <$> digits? (Nat.toDigits 10 n.natAbs) := by
      rcases hds : Nat.toDigits 10 n.natAbs with - | ⟨ch, ds⟩
      · rfl
      · rw [hds] at hdigit
        have hch := hdigit ch List.mem_cons_self
        rw [signed?.eq_def]
        split
        · rename_i heq
          rw [(List.cons.inj heq).1] at hch
          exact absurd hch (by decide)
        · rename_i heq
          rw [(List.cons.inj heq).1] at hch
          exact absurd hch (by decide)
        · rfl
    rw [hplain, hdigits]
    simp only [Functor.map, Option.map_some, natOfDigits_toDigits]
    have habs : (n.natAbs : Int) = n := by omega
    exact congrArg Except.ok habs
end Numerals

end Astreum

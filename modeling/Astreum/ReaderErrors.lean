import Astreum.TokenStream
import Astreum.AssembledEnv
import Astreum.Cells

namespace Astreum

section Grammar

/-- A hash literal that is not `#` with 64 hex digits. -/
def MalformedHash (tok : String) : Prop :=
  ∃ hex, tok.toList = '#' :: hex ∧ (tok.toList.length ≠ 65 ∨ bytesFromHex hex = none)

/-- A token `0x` or `0X` with something behind it that is not pairs of hex digits. -/
def MalformedBytes (tok : String) : Prop :=
  (tok.toList.take 2).map Char.toLower = ['0', 'x'] ∧ bytesFromHex (tok.toList.drop 2) = none

/-- What is read: one expression, or the items of a list up to its end, with some items before
them or none. -/
inductive ReadMode where
  | one
  | items (started : Bool)

/-- The tokens start with a complete expression, or with the rest of a list, and go on with
`rest`. -/
inductive Takes : ReadMode → List String → List String → Prop
  | atom {tok : String} {toks : List String} (hopen : tok ≠ "(") (hclose : tok ≠ ")")
      (hhash : ¬MalformedHash tok) (hbytes : ¬MalformedBytes tok) : Takes .one (tok :: toks) toks
  | list {toks rest : List String} (hitems : Takes (.items false) toks rest) :
      Takes .one ("(" :: toks) rest
  | close {started : Bool} {toks : List String} : Takes (.items started) (")" :: toks) toks
  | dotted {toks rest : List String} (htail : Takes .one toks (")" :: rest)) :
      Takes (.items true) ("." :: toks) rest
  | item {started : Bool} {tok : String} {toks more rest : List String} (hclose : tok ≠ ")")
      (hdot : tok ≠ ".") (hitem : Takes .one (tok :: toks) more)
      (hitems : Takes (.items true) more rest) : Takes (.items started) (tok :: toks) rest

/-- The reader comes to a malformed bytes literal. -/
inductive MeetsMalformed : ReadMode → List String → Prop
  | here {tok : String} {toks : List String} (hbytes : MalformedBytes tok) :
      MeetsMalformed .one (tok :: toks)
  | list {toks : List String} (hitems : MeetsMalformed (.items false) toks) :
      MeetsMalformed .one ("(" :: toks)
  | dotted {toks : List String} (htail : MeetsMalformed .one toks) :
      MeetsMalformed (.items true) ("." :: toks)
  | item {started : Bool} {tok : String} {toks : List String} (hclose : tok ≠ ")")
      (hdot : tok ≠ ".") (hitem : MeetsMalformed .one (tok :: toks)) :
      MeetsMalformed (.items started) (tok :: toks)
  | later {started : Bool} {tok : String} {toks more : List String} (hclose : tok ≠ ")")
      (hdot : tok ≠ ".") (hitem : Takes .one (tok :: toks) more)
      (hitems : MeetsMalformed (.items true) more) :
      MeetsMalformed (.items started) (tok :: toks)

variable {tok : String} {toks rest : List String} {mode : ReadMode}

theorem Takes.suffix (h : Takes mode toks rest) : rest <:+ toks ∧ rest.length < toks.length := by
  induction h with
  | atom | close => exact ⟨List.suffix_cons _ _, Nat.lt_succ_self _⟩
  | list _ ih => exact ⟨ih.1.trans (List.suffix_cons _ _), Nat.lt_succ_of_lt ih.2⟩
  | dotted _ ih =>
    have hlength := ih.2
    rw [List.length_cons] at hlength
    refine ⟨((List.suffix_cons _ _).trans ih.1).trans (List.suffix_cons _ _), ?_⟩
    rw [List.length_cons]
    omega
  | item _ _ _ _ ihitem ihitems => exact ⟨ihitems.1.trans ihitem.1, ihitems.2.trans ihitem.2⟩

end Grammar

section Atoms

variable {tok : String} {err : PyError}

/-- An atom raises a `ValueError` for a malformed bytes literal and a `ParseError` for a malformed
hash literal. -/
theorem parseAtom_error (h : parseAtom tok = .error err) :
    (err = .valueError ∧ MalformedBytes tok) ∨ (err = .parseError ∧ MalformedHash tok) := by
  rw [parseAtom] at h
  dsimp only at h
  have hfloat : ∀ x, floatResult "fp64" x ≠ .error err := fun x h => by cases h
  split at h
  · cases h
  split at h
  · rename_i hex heq
    right
    split at h
    · rename_i hlength
      cases h
      exact ⟨rfl, hex, heq, .inl hlength⟩
    · split at h
      · cases h
      · rename_i hnone
        cases h
        exact ⟨rfl, hex, heq, .inr hnone⟩
  · cases h
  · split at h
    · rename_i hstart
      left
      split at h
      · cases h
      · rename_i hnone
        cases h
        exact ⟨rfl, hstart, hnone⟩
    · split at h
      · cases h
      · split at h
        · exact absurd h (hfloat _)
        · cases h

theorem MalformedBytes.head_ne {ch : Char} {cs : List Char} (h : MalformedBytes tok)
    (hlower : ch.toLower ≠ '0') : tok.toList ≠ ch :: cs := by
  intro heq
  have hstart := h.1
  rw [heq] at hstart
  have hcons : ch.toLower :: (cs.take 1).map Char.toLower = ['0', 'x'] := hstart
  exact hlower (List.cons.inj hcons).1

theorem parseAtom_of_malformedBytes (h : MalformedBytes tok) :
    parseAtom tok = .error .valueError := by
  rw [parseAtom]
  dsimp only
  rw [if_neg]
  · split
    · rename_i hex heq
      exact absurd heq (h.head_ne (by decide))
    · rename_i body heq
      exact absurd heq (h.head_ne (by decide))
    · rw [if_pos h.1, h.2]
  · rintro rfl
    exact absurd h.1 (by decide)

theorem parseAtom_of_malformedHash (h : MalformedHash tok) :
    parseAtom tok = .error .parseError := by
  obtain ⟨hex, heq, hbad⟩ := h
  have hne : tok ≠ "nil" := by
    rintro rfl
    have hhead : "nil".toList.head? = some '#' := congrArg List.head? heq
    exact absurd hhead (by decide)
  rw [parseAtom]
  dsimp only
  rw [if_neg hne]
  split
  · rename_i hex' heq'
    obtain rfl := (List.cons.inj (heq.symm.trans heq')).2
    split
    · rfl
    · rename_i hlength
      rw [hbad.resolve_left hlength]
  · rename_i body heq'
    exact absurd (List.cons.inj (heq.symm.trans heq')).1 (by decide)
  · rename_i hnot _
    exact absurd heq (hnot hex)

/-- An atom is read unless it is malformed. -/
theorem exists_parseAtom (hhash : ¬MalformedHash tok) (hbytes : ¬MalformedBytes tok) :
    ∃ e, parseAtom tok = .ok e := by
  rcases hatom : parseAtom tok with err | e
  · rcases parseAtom_error hatom with ⟨-, h⟩ | ⟨-, h⟩
    · exact absurd h hbytes
    · exact absurd h hhash
  · exact ⟨e, rfl⟩

end Atoms

section Parsing

variable {toks rest : List String} {mode : ReadMode}

/-- What the parser gives in a mode, from the items before. -/
def parseIn (n : Nat) (items : List Expr) : ReadMode → List String → Py (Expr × List String)
  | .one, toks => parseOne n toks
  | .items _, toks => parseItems n items toks

/-- The parser gives what the grammar says, as far as its fuel goes. -/
def ReadOutcome (mode : ReadMode) (toks : List String) : Py (Expr × List String) → Prop
  | .ok (_, rest) => Takes mode toks rest
  | .error .valueError => MeetsMalformed mode toks
  | .error err => err = .parseError ∨ err = .outOfFuel

theorem ReadOutcome.bind_error {mode' : ReadMode} {toks' : List String} {err : PyError}
    (h : ReadOutcome mode toks (.error err))
    (hmeets : MeetsMalformed mode toks → MeetsMalformed mode' toks') :
    ReadOutcome mode' toks' (.error err) := by
  cases err with
  | valueError => exact hmeets h
  | _ => exact h

theorem readOutcome_parse (n : Nat) :
    (∀ toks, ReadOutcome .one toks (parseOne n toks)) ∧
      ∀ items toks, ReadOutcome (.items !items.isEmpty) toks (parseItems n items toks) := by
  induction n with
  | zero => exact ⟨fun _ => .inr rfl, fun _ _ => .inr rfl⟩
  | succ n ih =>
    refine ⟨fun toks => ?_, fun items toks => ?_⟩
    · rcases toks with - | ⟨tok, toks⟩
      · exact .inl rfl
      rw [parseOne]
      split
      · rename_i hopen
        subst hopen
        have hitems := ih.2 [] toks
        rcases hrun : parseItems n [] toks with err | ⟨e, rest⟩
        · rw [hrun] at hitems
          exact hitems.bind_error .list
        · rw [hrun] at hitems
          exact .list hitems
      split
      · exact .inl rfl
      · rename_i hopen hclose
        rcases hatom : parseAtom tok with err | e
        · rcases parseAtom_error hatom with ⟨rfl, hbytes⟩ | ⟨rfl, -⟩
          · exact .here hbytes
          · exact .inl rfl
        · refine .atom hopen hclose (fun hhash => ?_) fun hbytes => ?_
          · rw [parseAtom_of_malformedHash hhash] at hatom
            cases hatom
          · rw [parseAtom_of_malformedBytes hbytes] at hatom
            cases hatom
    · rcases toks with - | ⟨tok, toks⟩
      · exact .inl rfl
      rw [parseItems]
      split
      · rename_i hclose
        subst hclose
        exact .close
      rename_i hclose
      split
      · rename_i hdot
        subst hdot
        split
        · exact .inl rfl
        rename_i hne
        have hstarted : (!items.isEmpty) = true := by
          cases items with
          | nil => exact absurd rfl hne
          | cons _ _ => rfl
        rw [hstarted]
        have htail := ih.1 toks
        rcases hrun : parseOne n toks with err | ⟨tail, more⟩
        · rw [hrun] at htail
          exact htail.bind_error .dotted
        · rw [hrun] at htail
          rw [py_ok_bind]
          dsimp only
          split
          · exact .dotted htail
          · exact .inl rfl
      · rename_i hdot
        have hitem := ih.1 (tok :: toks)
        rcases hrun : parseOne n (tok :: toks) with err | ⟨item, more⟩
        · rw [hrun] at hitem
          exact hitem.bind_error (.item hclose hdot)
        · rw [hrun] at hitem
          rw [py_ok_bind]
          dsimp only
          have hitems := ih.2 (item :: items) more
          rcases hrest : parseItems n (item :: items) more with err | ⟨e, rest⟩
          · rw [hrest] at hitems
            exact hitems.bind_error (.later hclose hdot hitem)
          · rw [hrest] at hitems
            exact .item hclose hdot hitem hitems

theorem Takes.parse (h : Takes mode toks rest) (n : Nat) (items : List Expr)
    (hstarted : ∀ started, mode = .items started → started = !items.isEmpty) :
    (∃ e, parseIn n items mode toks = .ok (e, rest)) ∨
      parseIn n items mode toks = .error .outOfFuel := by
  induction h generalizing n items with
  | @atom tok toks hopen hclose hhash hbytes =>
    cases n with
    | zero => exact .inr rfl
    | succ n =>
      obtain ⟨e, hatom⟩ := exists_parseAtom hhash hbytes
      refine .inl ⟨e, ?_⟩
      rw [parseIn, parseOne, if_neg hopen, if_neg hclose, hatom]
      rfl
  | list _ ih =>
    cases n with
    | zero => exact .inr rfl
    | succ n =>
      rw [parseIn, parseOne, if_pos rfl]
      refine ih n [] fun started heq => ?_
      cases heq
      rfl
  | close =>
    cases n with
    | zero => exact .inr rfl
    | succ n =>
      rw [parseIn, parseItems, if_pos rfl]
      exact .inl ⟨_, rfl⟩
  | dotted _ ih =>
    cases n with
    | zero => exact .inr rfl
    | succ n =>
      have hne : items ≠ [] := by
        rintro rfl
        exact absurd (hstarted true rfl) (by decide)
      rw [parseIn, parseItems, if_neg (by decide), if_pos rfl, if_neg hne]
      rcases ih n [] (fun _ heq => by cases heq) with ⟨e, htail⟩ | htail
      · rw [parseIn] at htail
        rw [htail]
        exact .inl ⟨_, rfl⟩
      · rw [parseIn] at htail
        rw [htail]
        exact .inr rfl
  | item hclose hdot _ _ ihitem ihitems =>
    cases n with
    | zero => exact .inr rfl
    | succ n =>
      rw [parseIn, parseItems, if_neg hclose, if_neg hdot]
      rcases ihitem n [] (fun _ heq => by cases heq) with ⟨item, hitem⟩ | hitem
      · rw [parseIn] at hitem
        rw [hitem, py_ok_bind]
        refine ihitems n (item :: items) fun started heq => ?_
        cases heq
        rfl
      · rw [parseIn] at hitem
        rw [hitem]
        exact .inr rfl

theorem MeetsMalformed.parse (h : MeetsMalformed mode toks) (n : Nat) (items : List Expr)
    (hstarted : ∀ started, mode = .items started → started = !items.isEmpty) :
    parseIn n items mode toks = .error .valueError ∨
      parseIn n items mode toks = .error .outOfFuel := by
  induction h generalizing n items with
  | @here tok toks hbytes =>
    cases n with
    | zero => exact .inr rfl
    | succ n =>
      have hopen : tok ≠ "(" := by
        rintro rfl
        exact absurd hbytes.1 (by decide)
      have hclose : tok ≠ ")" := by
        rintro rfl
        exact absurd hbytes.1 (by decide)
      rw [parseIn, parseOne, if_neg hopen, if_neg hclose, parseAtom_of_malformedBytes hbytes]
      exact .inl rfl
  | list _ ih =>
    cases n with
    | zero => exact .inr rfl
    | succ n =>
      rw [parseIn, parseOne, if_pos rfl]
      refine ih n [] fun started heq => ?_
      cases heq
      rfl
  | dotted _ ih =>
    cases n with
    | zero => exact .inr rfl
    | succ n =>
      have hne : items ≠ [] := by
        rintro rfl
        exact absurd (hstarted true rfl) (by decide)
      rw [parseIn, parseItems, if_neg (by decide), if_pos rfl, if_neg hne]
      rcases ih n [] (fun _ heq => by cases heq) with htail | htail
      · rw [parseIn] at htail
        rw [htail]
        exact .inl rfl
      · rw [parseIn] at htail
        rw [htail]
        exact .inr rfl
  | item hclose hdot _ ih =>
    cases n with
    | zero => exact .inr rfl
    | succ n =>
      rw [parseIn, parseItems, if_neg hclose, if_neg hdot]
      rcases ih n [] (fun _ heq => by cases heq) with hitem | hitem
      · rw [parseIn] at hitem
        rw [hitem]
        exact .inl rfl
      · rw [parseIn] at hitem
        rw [hitem]
        exact .inr rfl
  | later hclose hdot hitem _ ih =>
    cases n with
    | zero => exact .inr rfl
    | succ n =>
      rw [parseIn, parseItems, if_neg hclose, if_neg hdot]
      rcases hitem.parse n [] (fun _ heq => by cases heq) with ⟨item, hitem⟩ | hitem
      · rw [parseIn] at hitem
        rw [hitem, py_ok_bind]
        refine ih n (item :: items) fun started heq => ?_
        cases heq
        rfl
      · rw [parseIn] at hitem
        rw [hitem]
        exact .inr rfl

/-- `parse` -/
def parse (tokens : List String) : Py (Expr × List String) :=
  parseOne (2 * tokens.length + 1) tokens

/-- An expression with the tokens that are left after it, or a `ParseError`. -/
def ReadsOrRejects (tokens : List String) : Prop :=
  (∃ e rest, parse tokens = .ok (e, rest) ∧ rest <:+ tokens ∧ rest.length < tokens.length) ∨
    parse tokens = .error .parseError

theorem readsOrRejects_iff (tokens : List String) :
    ReadsOrRejects tokens ↔ ¬MeetsMalformed .one tokens := by
  have hends := ((consumes_parse (2 * tokens.length + 1)).1 tokens (Nat.lt_succ_self _)).ends
  constructor
  · intro hreads hmeets
    rcases hmeets.parse (2 * tokens.length + 1) [] (fun _ heq => nomatch heq) with h | h
    · rcases hreads with ⟨e, rest, hok, -⟩ | herror
      · cases h.symm.trans hok
      · cases h.symm.trans herror
    · exact hends h
  · intro hmeets
    have houtcome := (readOutcome_parse (2 * tokens.length + 1)).1 tokens
    rcases hrun : parseOne (2 * tokens.length + 1) tokens with err | ⟨e, rest⟩
    · rw [hrun] at houtcome hends
      cases err with
      | valueError => exact absurd houtcome hmeets
      | parseError => exact .inr hrun
      | outOfFuel => exact absurd rfl hends
      | _ => rcases houtcome with h | h <;> cases h
    · rw [hrun] at houtcome
      exact .inl ⟨e, rest, hrun, houtcome.suffix⟩

example : tokenize "(a . 0xff) ;" = ["(", "a", ".", "0xff", ")"] := by decide +kernel

end Parsing

end Astreum

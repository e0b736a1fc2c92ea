import Astreum.SequenceLaws
import Astreum.MerkleProofs
import Astreum.RecordWalk

namespace Astreum

open Core Eff

/-- Where in two exprs that are walked together the two sides are one object. A place is the list of
its turns, `true` for a tail. -/
abbrev Identity := List Bool → Bool

namespace Identity

def head (same : Identity) : Identity := fun place => same (false :: place)

def tail (same : Identity) : Identity := fun place => same (true :: place)

end Identity

section Definitions

variable (node : Node)

/-- `x is y`. There is one `NIL`. -/
def OneObject (same : Identity) (x y : Expr) : Prop := same [] ∨ x = .nil ∧ y = .nil

instance (same : Identity) (x y : Expr) : Decidable (OneObject same x y) :=
  inferInstanceAs (Decidable (_ ∨ _ ∧ _))

/-- `expr_equal`. The depth of the first cell bounds the recursion. -/
def exprEqualOf : Nat → Identity → Option Expr → Option Expr → Py Bool
  | 0, _, _, _ => .error .outOfFuel
  | n + 1, same, x, y => match x, y with
    | none, none => .ok true
    | some x, some y =>
      if OneObject same x y then .ok true
      else do
        let xTag ← exprTagLocal node.blake3 x
        let yTag ← exprTagLocal node.blake3 y
        if xTag = "link" ∧ yTag = "link" then
          if ← exprEqualOf n same.head x.head? y.head? then
            exprEqualOf n same.tail x.tail? y.tail?
          else return false
        else if xTag ≠ yTag then return false
        else if xTag = "int" ∨ xTag = "bytes" ∨ xTag = "symbol" then
          return decide (x.value = y.value)
        else if xTag ∈ floatTags then
          if xTag = "fp64" ∧ (x.value = .none ∨ y.value = .none) then
            return decide (x.value = y.value)
          let p ← exprToFp64 (node.tag x) x
          let q ← exprToFp64 (node.tag y) y
          return p.eq q
        else return false
    | _, _ => .ok false

/-- The `is_eq` operator, over operands that share objects. -/
def handleStackIsEqOf (same : Identity) : CoreOp := do
  let (a, b) ← popTwo
  let n ← .ofExcept a.size
  let m ← .ofExcept b.size
  chargeBytes (min n m + 1)
  push (truth (← .ofExcept (exprEqualOf node (a.depth + 1) same (some a) (some b))))

/-- Of exprs that share no object but nil the two definitions say the same. -/
theorem exprEqual_eq (n : Nat) (x y : Option Expr) :
    exprEqual node n x y = exprEqualOf node n (fun _ => false) x y := by
  induction n generalizing x y with
  | zero => rfl
  | succ n ih =>
    rcases x with - | x
    · cases y <;> rfl
    rcases y with - | y
    · cases x <;> rfl
    by_cases hnil : x = .nil ∧ y = .nil
    · obtain ⟨rfl, rfl⟩ := hnil
      rfl
    · have hobject : ¬OneObject (fun _ => false) x y := fun h =>
        hnil (h.resolve_left Bool.false_ne_true)
      have hx : x = .nil → y = .nil → False := fun hx hy => hnil ⟨hx, hy⟩
      rw [exprEqual, exprEqualOf]
      · rw [if_neg hobject]
        simp only [ih]
        rfl
      · exact hx

/-- The evaluator's `is_eq` is the one of operands that share no object. -/
theorem handleStackIsEq_eq : handleStackIsEq node = handleStackIsEqOf node fun _ => false := by
  rw [handleStackIsEq, handleStackIsEqOf]
  simp only [exprEqual_eq]

end Definitions

/-- An expr of nil, symbols, bytes, ints, strings and links, the cells of which may be known by
their hashes only. A link with the type symbol of a float in its tail is a float. -/
inductive Built (blake3 : Bytes → Bytes) : Expr → Prop
  | nil : Built blake3 .nil
  | symbol (s : String) : Built blake3 (.symbol s)
  | bytes (b : Bytes) : Built blake3 (.bytes b)
  | int (n : Int) : Built blake3 (int_ n)
  | str (s : String) : Built blake3 (str_ s)
  | link {h t : Child} (hhead : ∀ e, h = .loaded e → Built blake3 e)
      (htail : ∀ e, t = .loaded e → Built blake3 e)
      (hhash : ∀ x, h = .byHash x ∨ t = .byHash x → x.length = 32)
      (hfloat : ∀ tag, exprTagLocal blake3 (.link .none h t) = .ok tag → tag ∉ floatTags) :
      Built blake3 (.link .none h t)

section Conditions

variable (blake3 : Bytes → Bytes)

/-- Different objects whose heads and tails are compared: both are links without a tag. -/
def Opens (same : Identity) (x y : Expr) : Prop :=
  ¬OneObject same x y ∧ exprTagLocal blake3 x = .ok "link" ∧ exprTagLocal blake3 y = .ok "link"

/-- The tags of which `expr_equal` compares the values. -/
def valueTags : List String := ["int", "bytes", "symbol"]

/-- At every place that is reached, two different objects are comparable: both are loaded, with
their tags, or none is; they are no strings and have no tag of their own; and both have their value
at hand or none has. -/
inductive Comparable : Identity → Option Expr → Option Expr → Prop
  | absent {same : Identity} : Comparable same none none
  | object {same : Identity} {x y : Expr} (h : OneObject same x y) :
      Comparable same (some x) (some y)
  | values {same : Identity} {x y : Expr} {tag : String} (hx : exprTagLocal blake3 x = .ok tag)
      (hy : exprTagLocal blake3 y = .ok tag) (htag : tag ∈ valueTags)
      (hvalue : x.value = .none ↔ y.value = .none) : Comparable same (some x) (some y)
  | pair {same : Identity} {x y : Expr} (h : Opens blake3 same x y)
      (hhead : Comparable same.head x.head? y.head?)
      (htail : Comparable same.tail x.tail? y.tail?) : Comparable same (some x) (some y)

/-- At every place that is reached, the tags of two different objects are known. -/
inductive TagsKnown : Identity → Option Expr → Option Expr → Prop
  | absent {same : Identity} {x y : Option Expr} (h : x = none ∨ y = none) : TagsKnown same x y
  | object {same : Identity} {x y : Expr} (h : OneObject same x y) :
      TagsKnown same (some x) (some y)
  | tags {same : Identity} {x y : Expr} {tag tag' : String} (hx : exprTagLocal blake3 x = .ok tag)
      (hy : exprTagLocal blake3 y = .ok tag') (h : ¬(tag = "link" ∧ tag' = "link")) :
      TagsKnown same (some x) (some y)
  | pair {same : Identity} {x y : Expr} (h : Opens blake3 same x y)
      (hhead : TagsKnown same.head x.head? y.head?)
      (htail : TagsKnown same.tail x.tail? y.tail?) : TagsKnown same (some x) (some y)

/-- At some place that is reached the two sides show a difference: one of them is not loaded, the
tags or the values differ, or they are different objects with a tag of which nothing is compared.
No tag before that place is unknown. -/
inductive ShowsDifference : Identity → Option Expr → Option Expr → Prop
  | missing {same : Identity} {x y : Option Expr} (h : x.isSome ≠ y.isSome) :
      ShowsDifference same x y
  | tags {same : Identity} {x y : Expr} {tag tag' : String} (hobj : ¬OneObject same x y)
      (hx : exprTagLocal blake3 x = .ok tag) (hy : exprTagLocal blake3 y = .ok tag')
      (h : tag ≠ tag' ∨ tag ∉ "link" :: valueTags ∨ tag ∈ valueTags ∧ x.value ≠ y.value) :
      ShowsDifference same (some x) (some y)
  | head {same : Identity} {x y : Expr} (h : Opens blake3 same x y)
      (hhead : ShowsDifference same.head x.head? y.head?) : ShowsDifference same (some x) (some y)
  | tail {same : Identity} {x y : Expr} (h : Opens blake3 same x y)
      (hhead : TagsKnown blake3 same.head x.head? y.head?)
      (htail : ShowsDifference same.tail x.tail? y.tail?) : ShowsDifference same (some x) (some y)

end Conditions

section Walk

variable {node : Node} {same : Identity} {x y : Expr} {n : Nat} {tag tag' : String}

theorem exprEqualOf_object (h : OneObject same x y) :
    exprEqualOf node (n + 1) same (some x) (some y) = .ok true := by
  rw [exprEqualOf, if_pos h]

theorem exprEqualOf_pair (h : Opens node.blake3 same x y) :
    exprEqualOf node (n + 1) same (some x) (some y) =
      (do
        if ← exprEqualOf node n same.head x.head? y.head? then
          exprEqualOf node n same.tail x.tail? y.tail?
        else return false) := by
  obtain ⟨hobject, hx, hy⟩ := h
  rw [exprEqualOf, if_neg hobject, hx, hy]
  rfl

theorem exprEqualOf_tags (hobject : ¬OneObject same x y)
    (hx : exprTagLocal node.blake3 x = .ok tag) (hy : exprTagLocal node.blake3 y = .ok tag')
    (hlink : ¬(tag = "link" ∧ tag' = "link")) (hfloat : tag ∉ floatTags) :
    exprEqualOf node (n + 1) same (some x) (some y) =
      .ok (decide (tag = tag' ∧ tag ∈ valueTags ∧ x.value = y.value)) := by
  rw [exprEqualOf, if_neg hobject, hx, hy]
  change (if tag = "link" ∧ tag' = "link" then _ else if tag ≠ tag' then _ else _ : Py Bool) = _
  rw [if_neg hlink]
  by_cases htag : tag = tag'
  · have hvalue : tag ∈ valueTags ↔ tag = "int" ∨ tag = "bytes" ∨ tag = "symbol" := by
      simp [valueTags]
    rw [if_neg (not_not_intro htag)]
    by_cases hmem : tag ∈ valueTags
    · rw [if_pos (hvalue.mp hmem)]
      simp only [htag, htag ▸ hmem, true_and]
      rfl
    · rw [if_neg (mt hvalue.mpr hmem), if_neg hfloat]
      simp only [hmem, false_and, and_false, decide_false]
      rfl
  · rw [if_pos htag]
    simp only [htag, false_and, decide_false]
    rfl

theorem exprEqualOf_unknown (hobject : ¬OneObject same x y)
    (h : ∀ tag tag', exprTagLocal node.blake3 x = .ok tag →
      exprTagLocal node.blake3 y ≠ .ok tag') :
    ∃ e, exprEqualOf node (n + 1) same (some x) (some y) = .error e := by
  rw [exprEqualOf, if_neg hobject]
  rcases hx : exprTagLocal node.blake3 x with e | tag
  · exact ⟨e, rfl⟩
  rcases hy : exprTagLocal node.blake3 y with e | tag'
  · exact ⟨e, rfl⟩
  · exact absurd hy (h tag tag' hx)

/-- What the walk can meet. -/
theorem walk_cases (blake3 : Bytes → Bytes) (same : Identity) (x y : Expr) :
    OneObject same x y ∨ Opens blake3 same x y ∨
      (¬OneObject same x y ∧ ∃ tag tag', exprTagLocal blake3 x = .ok tag ∧
        exprTagLocal blake3 y = .ok tag' ∧ ¬(tag = "link" ∧ tag' = "link")) ∨
      (¬OneObject same x y ∧ ∀ tag tag', exprTagLocal blake3 x = .ok tag →
        exprTagLocal blake3 y ≠ .ok tag') := by
  by_cases hobject : OneObject same x y
  · exact .inl hobject
  right
  rcases hx : exprTagLocal blake3 x with e | tag
  · exact .inr (.inr ⟨hobject, fun tag tag' h => nomatch h⟩)
  rcases hy : exprTagLocal blake3 y with e | tag'
  · exact .inr (.inr ⟨hobject, fun tag tag' _ h => nomatch h⟩)
  by_cases hlink : tag = "link" ∧ tag' = "link"
  · obtain ⟨rfl, rfl⟩ := hlink
    exact .inl ⟨hobject, hx, hy⟩
  · exact .inr (.inl ⟨hobject, tag, tag', rfl, rfl, hlink⟩)

theorem Built.not_float {blake3 : Bytes → Bytes} (hx : Built blake3 x)
    (htag : exprTagLocal blake3 x = .ok tag) : tag ∉ floatTags := by
  cases hx with
  | nil =>
    cases htag
    decide
  | symbol _ =>
    cases htag
    exact of_decide_eq_true rfl
  | bytes _ =>
    cases htag
    exact of_decide_eq_true rfl
  | int _ =>
    cases htag
    decide
  | str _ =>
    cases htag
    decide
  | link _ _ _ hfloat => exact hfloat tag htag

theorem Built.of_head {blake3 : Bytes → Bytes} {e : Expr} (hx : Built blake3 x)
    (he : x.head? = some e) : Built blake3 e := by
  cases hx with
  | nil | symbol _ | bytes _ | int _ | str _ => cases he
  | @link h t hhead _ _ _ =>
    cases h with
    | loaded e' =>
      cases he
      exact hhead _ rfl
    | none | byHash _ => cases he

theorem Built.of_tail {blake3 : Bytes → Bytes} {e : Expr} (hx : Built blake3 x)
    (he : x.tail? = some e) : Built blake3 e := by
  cases hx with
  | nil | symbol _ | bytes _ => cases he
  | int _ =>
    cases he
    exact .symbol _
  | str _ =>
    cases he
    exact .symbol _
  | @link h t _ htail _ _ =>
    cases t with
    | loaded e' =>
      cases he
      exact htail _ rfl
    | none | byHash _ => cases he

def depthOf (x : Option Expr) : Nat := x.elim 0 Expr.depth

theorem depthOf_cell (c : Child) : depthOf c.cell? ≤ c.depth := by
  cases c with
  | loaded e =>
    have hchild : (Child.loaded e).depth = e.depth := by rw [Child.depth]
    exact hchild.ge
  | none | byHash _ => exact Nat.zero_le _

theorem depthOf_head (x : Expr) : depthOf x.head? < x.depth := by
  cases x with
  | link v h t =>
    have hdepth : (Expr.link v h t).depth = 1 + max h.depth t.depth := by rw [Expr.depth]
    have hhead : depthOf (Expr.link v h t).head? ≤ h.depth := depthOf_cell h
    omega
  | nil | symbol _ | bytes _ | bytesOf _ => exact Nat.one_pos

theorem depthOf_tail (x : Expr) : depthOf x.tail? < x.depth := by
  cases x with
  | link v h t =>
    have hdepth : (Expr.link v h t).depth = 1 + max h.depth t.depth := by rw [Expr.depth]
    have htail : depthOf (Expr.link v h t).tail? ≤ t.depth := depthOf_cell t
    omega
  | nil | symbol _ | bytes _ | bytesOf _ => exact Nat.one_pos

end Walk

section Equal

variable {node : Node} {same : Identity} {x y : Option Expr} {n : Nat}

theorem comparable_of_equal (hx : ∀ e, x = some e → Built node.blake3 e)
    (h : exprEqualOf node n same x y = .ok true) : Comparable node.blake3 same x y := by
  induction n generalizing same x y with
  | zero => cases h
  | succ n ih =>
    cases x with
    | none =>
      cases y with
      | none => exact .absent
      | some y => cases h
    | some x =>
      cases y with
      | none => cases h
      | some y =>
        have hbuilt := hx x rfl
        obtain hobject | hopens | ⟨hobject, tag, tag', htag, htag', hlink⟩ | ⟨hobject, hunknown⟩ :=
          walk_cases node.blake3 same x y
        · exact .object hobject
        · rw [exprEqualOf_pair hopens] at h
          obtain ⟨b, hhead, h⟩ := except_bind_eq_ok.mp h
          cases b with
          | false => cases h
          | true =>
            exact .pair hopens (ih (fun e he => hbuilt.of_head he) hhead)
              (ih (fun e he => hbuilt.of_tail he) h)
        · rw [exprEqualOf_tags hobject htag htag' hlink (hbuilt.not_float htag)] at h
          obtain ⟨rfl, hmem, hvalue⟩ := of_decide_eq_true (Except.ok.inj h)
          exact .values htag htag' hmem (by rw [hvalue])
        · obtain ⟨e, he⟩ := exprEqualOf_unknown (n := n) hobject hunknown
          rw [he] at h
          cases h

theorem tagsKnown_of_comparable {blake3 : Bytes → Bytes} (h : Comparable blake3 same x y) :
    TagsKnown blake3 same x y := by
  induction h with
  | absent => exact .absent (.inl rfl)
  | object h => exact .object h
  | values hx hy htag _ =>
    refine .tags hx hy fun hlink => ?_
    rw [hlink.1] at htag
    exact absurd htag (by decide)
  | pair h _ _ ihhead ihtail => exact .pair h ihhead ihtail

theorem showsDifference_of_unequal (hx : ∀ e, x = some e → Built node.blake3 e)
    (h : exprEqualOf node n same x y = .ok false) : ShowsDifference node.blake3 same x y := by
  induction n generalizing same x y with
  | zero => cases h
  | succ n ih =>
    cases x with
    | none =>
      cases y with
      | none => cases h
      | some y => exact .missing Bool.false_ne_true
    | some x =>
      cases y with
      | none => exact .missing Bool.false_ne_true.symm
      | some y =>
        have hbuilt := hx x rfl
        obtain hobject | hopens | ⟨hobject, tag, tag', htag, htag', hlink⟩ | ⟨hobject, hunknown⟩ :=
          walk_cases node.blake3 same x y
        · rw [exprEqualOf_object hobject] at h
          cases h
        · rw [exprEqualOf_pair hopens] at h
          obtain ⟨b, hhead, h⟩ := except_bind_eq_ok.mp h
          have hhead' := fun e he => hbuilt.of_head (e := e) he
          cases b with
          | false => exact .head hopens (ih hhead' hhead)
          | true =>
            exact .tail hopens (tagsKnown_of_comparable (comparable_of_equal hhead' hhead))
              (ih (fun e he => hbuilt.of_tail he) h)
        · rw [exprEqualOf_tags hobject htag htag' hlink (hbuilt.not_float htag)] at h
          have hdiffers := of_decide_eq_false (Except.ok.inj h)
          refine .tags hobject htag htag' ?_
          by_cases heq : tag = tag'
          · by_cases hmem : tag ∈ valueTags
            · exact .inr (.inr ⟨hmem, fun hvalue => hdiffers ⟨heq, hmem, hvalue⟩⟩)
            · refine .inr (.inl fun hcons => ?_)
              obtain htaglink | hcon := List.mem_cons.mp hcons
              · exact hlink ⟨htaglink, heq ▸ htaglink⟩
              · exact hmem hcon
          · exact .inl heq
        · obtain ⟨e, he⟩ := exprEqualOf_unknown (n := n) hobject hunknown
          rw [he] at h
          cases h

theorem result_of_tagsKnown (hx : ∀ e, x = some e → Built node.blake3 e) (hn : depthOf x < n)
    (h : TagsKnown node.blake3 same x y) : ∃ b, exprEqualOf node n same x y = .ok b := by
  induction h generalizing n with
  | @absent same x y h =>
    obtain ⟨n, rfl⟩ := Nat.exists_eq_add_one_of_ne_zero (Nat.ne_zero_of_lt hn)
    obtain rfl | rfl := h
    · cases y <;> exact ⟨_, rfl⟩
    · cases x <;> exact ⟨_, rfl⟩
  | object h =>
    obtain ⟨n, rfl⟩ := Nat.exists_eq_add_one_of_ne_zero (Nat.ne_zero_of_lt hn)
    exact ⟨true, exprEqualOf_object h⟩
  | @tags same x y tag tag' htag htag' hlink =>
    obtain ⟨n, rfl⟩ := Nat.exists_eq_add_one_of_ne_zero (Nat.ne_zero_of_lt hn)
    by_cases hobject : OneObject same x y
    · exact ⟨true, exprEqualOf_object hobject⟩
    · exact ⟨_, exprEqualOf_tags hobject htag htag' hlink ((hx x rfl).not_float htag)⟩
  | @pair same x y hopens _ _ ihhead ihtail =>
    obtain ⟨n, rfl⟩ := Nat.exists_eq_add_one_of_ne_zero (Nat.ne_zero_of_lt hn)
    have hbuilt := hx x rfl
    have hdepth : x.depth < n + 1 := hn
    obtain ⟨b, hb⟩ := ihhead (n := n) (fun e he => hbuilt.of_head he)
      (by have := depthOf_head x; omega)
    obtain ⟨b', hb'⟩ := ihtail (n := n) (fun e he => hbuilt.of_tail he)
      (by have := depthOf_tail x; omega)
    rw [exprEqualOf_pair hopens, hb]
    cases b with
    | false => exact ⟨false, rfl⟩
    | true => exact ⟨b', hb'⟩

theorem unequal_of_showsDifference (hx : ∀ e, x = some e → Built node.blake3 e)
    (hn : depthOf x < n) (h : ShowsDifference node.blake3 same x y) :
    exprEqualOf node n same x y = .ok false := by
  induction h generalizing n with
  | @missing same x y h =>
    obtain ⟨n, rfl⟩ := Nat.exists_eq_add_one_of_ne_zero (Nat.ne_zero_of_lt hn)
    cases x with
    | none =>
      cases y with
      | none => exact absurd rfl h
      | some y => rfl
    | some x =>
      cases y with
      | none => rfl
      | some y => exact absurd rfl h
  | @tags same x y tag tag' hobject htag htag' h =>
    obtain ⟨n, rfl⟩ := Nat.exists_eq_add_one_of_ne_zero (Nat.ne_zero_of_lt hn)
    have hlink : ¬(tag = "link" ∧ tag' = "link") := by
      rintro ⟨rfl, rfl⟩
      obtain hne | hmem | ⟨hmem, -⟩ := h
      · exact hne rfl
      · exact hmem List.mem_cons_self
      · exact absurd hmem (by decide)
    rw [exprEqualOf_tags hobject htag htag' hlink ((hx x rfl).not_float htag)]
    refine congrArg Except.ok (decide_eq_false ?_)
    rintro ⟨heq, hmem, hvalue⟩
    obtain hne | hnot | ⟨-, hne⟩ := h
    · exact hne heq
    · exact hnot (List.mem_cons_of_mem _ hmem)
    · exact hne hvalue
  | @head same x y hopens _ ih =>
    obtain ⟨n, rfl⟩ := Nat.exists_eq_add_one_of_ne_zero (Nat.ne_zero_of_lt hn)
    have hbuilt := hx x rfl
    have hdepth : x.depth < n + 1 := hn
    rw [exprEqualOf_pair hopens,
      ih (n := n) (fun e he => hbuilt.of_head he) (by have := depthOf_head x; omega)]
    rfl
  | @tail same x y hopens hknown _ ih =>
    obtain ⟨n, rfl⟩ := Nat.exists_eq_add_one_of_ne_zero (Nat.ne_zero_of_lt hn)
    have hbuilt := hx x rfl
    have hdepth : x.depth < n + 1 := hn
    obtain ⟨b, hb⟩ := result_of_tagsKnown (n := n) (fun e he => hbuilt.of_head he)
      (by have := depthOf_head x; omega) hknown
    rw [exprEqualOf_pair hopens, hb]
    cases b with
    | false => rfl
    | true => exact ih (n := n) (fun e he => hbuilt.of_tail he) (by have := depthOf_tail x; omega)

end Equal

mutual

/-- What is hashed for the hash of an expr. -/
def Expr.hashInputs (blake3 : Bytes → Bytes) : Expr → List Bytes
  | .symbol s => [utf8 s, 1 :: blake3 (utf8 s)]
  | .bytes b => [b, 2 :: blake3 b]
  | .link v h t =>
    let hashes := (Expr.link v h t).getHeadHash blake3 ++ t.hash blake3
    (match payload? v t with
      | some p => [p, 2 :: blake3 p]
      | none => h.hashInputs blake3) ++ t.hashInputs blake3 ++ [hashes, 0 :: blake3 hashes]
  | _ => []

def Child.hashInputs (blake3 : Bytes → Bytes) : Child → List Bytes
  | .loaded e => e.hashInputs blake3
  | _ => []

end

section Hashes

variable {blake3 : Bytes → Bytes} {xs ys : List Bytes} {x y : Expr} {h t h' t' : Child}

theorem getHeadHash_plain (h t : Child) :
    (Expr.link .none h t).getHeadHash blake3 = h.hash blake3 := by
  cases h with
  | byHash x =>
    rw [Expr.getHeadHash, Child.hash]
    rfl
  | none | loaded _ =>
    change (match payload? .none t with
      | some p => terminalHash blake3 2 p
      | none => _) = _
    rw [payload?_of_none]
    rfl

theorem hashInputs_plain (h t : Child) : (Expr.link .none h t).hashInputs blake3 =
    h.hashInputs blake3 ++ t.hashInputs blake3 ++
      [h.hash blake3 ++ t.hash blake3, 0 :: blake3 (h.hash blake3 ++ t.hash blake3)] := by
  rw [Expr.hashInputs, payload?_of_none, getHeadHash_plain]

theorem Built.length_hash (hdigest : ∀ x, (blake3 x).length = 32) (hx : Built blake3 x) :
    (x.hash blake3).length = 32 := by
  cases hx with
  | nil => rfl
  | symbol _ | bytes _ | int _ | str _ => exact hdigest _
  | link _ _ _ _ =>
    rw [hash_pair]
    exact hdigest _

theorem length_hash_side (hdigest : ∀ x, (blake3 x).length = 32)
    (hbuilt : ∀ e, h = .loaded e → Built blake3 e) (hhash : ∀ x, h = .byHash x → x.length = 32) :
    (h.hash blake3).length = 32 := by
  cases h with
  | none => rfl
  | loaded e => exact (hbuilt e rfl).length_hash hdigest
  | byHash x => exact hhash x rfl

theorem plain_of_link (hx : Built blake3 x) (htag : exprTagLocal blake3 x = .ok "link") :
    x = .nil ∨ ∃ h t, x = .link .none h t := by
  cases hx with
  | nil => exact .inl rfl
  | symbol _ => exact absurd (Except.ok.inj htag) (show ¬"symbol" = "link" by decide)
  | bytes _ => exact absurd (Except.ok.inj htag) (show ¬"bytes" = "link" by decide)
  | int _ => exact absurd (Except.ok.inj htag) (show ¬"int" = "link" by decide)
  | str _ => exact absurd (Except.ok.inj htag) (show ¬"str" = "link" by decide)
  | link _ _ _ _ => exact .inr ⟨_, _, rfl⟩

theorem hashInputs_head {e : Expr} (hx : Built blake3 x) (he : x.head? = some e) :
    e.hashInputs blake3 ⊆ x.hashInputs blake3 := by
  cases hx with
  | nil | symbol _ | bytes _ | int _ | str _ => cases he
  | @link h t _ _ _ _ =>
    cases h with
    | loaded e' =>
      cases he
      intro input hinput
      rw [hashInputs_plain, Child.hashInputs]
      exact List.mem_append_left _ (List.mem_append_left _ hinput)
    | none | byHash _ => cases he

theorem hashInputs_tail {e : Expr} (he : x.tail? = some e) :
    e.hashInputs blake3 ⊆ x.hashInputs blake3 := by
  cases x with
  | link v h t =>
    cases t with
    | loaded e' =>
      cases he
      intro input hinput
      rw [Expr.hashInputs, Child.hashInputs]
      exact List.mem_append_left _ (List.mem_append_right _ hinput)
    | none | byHash _ => cases he
  | nil | symbol _ | bytes _ | bytesOf _ => cases he

/-- Digests that are hashed without a collision, in pairs, are told apart by the hash. -/
theorem linkHash_inj (hfree : CollisionFree blake3 (xs ++ ys)) {a b a' b' : Bytes}
    (ha : a.length = 32) (ha' : a'.length = 32) (hx : a ++ b ∈ xs ∧ 0 :: blake3 (a ++ b) ∈ xs)
    (hy : a' ++ b' ∈ ys ∧ 0 :: blake3 (a' ++ b') ∈ ys)
    (h : linkHash blake3 a b = linkHash blake3 a' b') : a = a' ∧ b = b' := by
  have hinner := (List.cons.inj (hfree _ (List.mem_append_left _ hx.2) _
    (List.mem_append_right _ hy.2) h)).2
  have houter := hfree _ (List.mem_append_left _ hx.1) _ (List.mem_append_right _ hy.1) hinner
  exact List.append_inj houter (ha.trans ha'.symm)

theorem terminalHash_inj (hfree : CollisionFree blake3 (xs ++ ys)) {tag : UInt8} {a b : Bytes}
    (hx : a ∈ xs ∧ tag :: blake3 a ∈ xs) (hy : b ∈ ys ∧ tag :: blake3 b ∈ ys)
    (h : terminalHash blake3 tag a = terminalHash blake3 tag b) : a = b := by
  have hinner := (List.cons.inj (hfree _ (List.mem_append_left _ hx.2) _
    (List.mem_append_right _ hy.2) h)).2
  exact hfree _ (List.mem_append_left _ hx.1) _ (List.mem_append_right _ hy.1) hinner

end Hashes

section Agreement

variable {node : Node} {xs ys : List Bytes} {same : Identity}

/-- Two links without a tag that hash alike have heads and tails that hash alike. -/
theorem sides_of_hash {blake3 : Bytes → Bytes} (hdigest : ∀ x, (blake3 x).length = 32)
    (hfree : CollisionFree blake3 (xs ++ ys)) {h t h' t' : Child}
    (hx : Built blake3 (.link .none h t)) (hy : Built blake3 (.link .none h' t'))
    (hxs : (Expr.link .none h t).hashInputs blake3 ⊆ xs)
    (hys : (Expr.link .none h' t').hashInputs blake3 ⊆ ys)
    (hhash : (Expr.link .none h t).hash blake3 = (Expr.link .none h' t').hash blake3) :
    h.hash blake3 = h'.hash blake3 ∧ t.hash blake3 = t'.hash blake3 := by
  have hlength : ∀ {h t : Child}, Built blake3 (.link .none h t) → (h.hash blake3).length = 32 := by
    intro h t hx
    cases hx with
    | link hhead _ hhash _ =>
      exact length_hash_side hdigest hhead fun x hx => hhash x (.inl hx)
  rw [hash_pair, hash_pair] at hhash
  rw [hashInputs_plain] at hxs hys
  have hmem : ∀ {l l' : List Bytes} {a b : Bytes}, l ++ [a, b] ⊆ l' → a ∈ l' ∧ b ∈ l' := by
    intro l l' a b hsub
    exact ⟨hsub (by simp), hsub (by simp)⟩
  exact linkHash_inj hfree (hlength hx) (hlength hy) (hmem hxs) (hmem hys) hhash

theorem sides_of_cells {blake3 : Bytes → Bytes} (hdigest : ∀ x, (blake3 x).length = 32)
    (hfree : CollisionFree blake3 (xs ++ ys)) {x y : Expr} (hx : Built blake3 x)
    (hy : Built blake3 y) (hxs : x.hashInputs blake3 ⊆ xs) (hys : y.hashInputs blake3 ⊆ ys)
    (htag : exprTagLocal blake3 x = .ok "link") (htag' : exprTagLocal blake3 y = .ok "link")
    (hhash : x.hash blake3 = y.hash blake3) :
    (∀ e e', x.head? = some e → y.head? = some e' → e.hash blake3 = e'.hash blake3) ∧
      ∀ e e', x.tail? = some e → y.tail? = some e' → e.hash blake3 = e'.hash blake3 := by
  obtain rfl | ⟨h, t, rfl⟩ := plain_of_link hx htag
  · exact ⟨(fun _ _ h => nomatch h), (fun _ _ h => nomatch h)⟩
  obtain rfl | ⟨h', t', rfl⟩ := plain_of_link hy htag'
  · exact ⟨(fun _ _ _ h => nomatch h), (fun _ _ _ h => nomatch h)⟩
  have hsides := sides_of_hash hdigest hfree hx hy hxs hys hhash
  have hside : ∀ {c c' : Child} (e e' : Expr), c.hash blake3 = c'.hash blake3 →
      c.cell? = some e → c'.cell? = some e' → e.hash blake3 = e'.hash blake3 := by
    intro c c' e e' hsame he he'
    cases c with
    | loaded _ =>
      cases c' with
      | loaded _ =>
        cases he
        cases he'
        rwa [Child.hash, Child.hash] at hsame
      | none | byHash _ => cases he'
    | none | byHash _ => cases he
  exact ⟨fun e e' => hside e e' hsides.1, fun e e' => hside e e' hsides.2⟩

/-- The hashes of the two sides of an int. -/
def intHashes (blake3 : Bytes → Bytes) (n : Int) : Bytes :=
  terminalHash blake3 2 (encodeInt n) ++ terminalHash blake3 1 (utf8 "int")

def intInputs (blake3 : Bytes → Bytes) (n : Int) : List Bytes :=
  [encodeInt n, 2 :: blake3 (encodeInt n)] ++ [utf8 "int", 1 :: blake3 (utf8 "int")] ++
    [intHashes blake3 n, 0 :: blake3 (intHashes blake3 n)]

theorem hashInputs_int (blake3 : Bytes → Bytes) (n : Int) :
    (int_ n).hashInputs blake3 = intInputs blake3 n := rfl

/-- What has a value that is compared. -/
theorem value_cases {blake3 : Bytes → Bytes} {x : Expr} {tag : String} (hx : Built blake3 x)
    (htag : exprTagLocal blake3 x = .ok tag) (hmem : tag ∈ valueTags) :
    x.value = .none ∨ (∃ s, x = .symbol s ∧ tag = "symbol") ∨ (∃ b, x = .bytes b ∧ tag = "bytes") ∨
      ∃ n, x = int_ n ∧ tag = "int" := by
  cases hx with
  | nil => exact .inl rfl
  | symbol s => exact .inr (.inl ⟨s, rfl, (Except.ok.inj htag).symm⟩)
  | bytes b => exact .inr (.inr (.inl ⟨b, rfl, (Except.ok.inj htag).symm⟩))
  | int n => exact .inr (.inr (.inr ⟨n, rfl, (Except.ok.inj htag).symm⟩))
  | str s =>
    rw [← (Except.ok.inj htag : "str" = tag)] at hmem
    exact absurd hmem (by decide)
  | link _ _ _ _ => exact .inl rfl

/-- Cells with one tag and one hash, of which both have a value or none has, have one value. -/
theorem value_of_hash {blake3 : Bytes → Bytes} (hfree : CollisionFree blake3 (xs ++ ys))
    (hdigest : ∀ x, (blake3 x).length = 32) {x y : Expr} {tag : String} (hx : Built blake3 x)
    (hy : Built blake3 y) (hxs : x.hashInputs blake3 ⊆ xs) (hys : y.hashInputs blake3 ⊆ ys)
    (htag : exprTagLocal blake3 x = .ok tag) (htag' : exprTagLocal blake3 y = .ok tag)
    (hmem : tag ∈ valueTags) (hvalue : x.value = .none ↔ y.value = .none)
    (hhash : x.hash blake3 = y.hash blake3) : x.value = y.value := by
  by_cases hnone : y.value = .none
  · rw [hvalue.mpr hnone, hnone]
  have hsome := mt hvalue.mp hnone
  have hpair : ∀ {l l' : List Bytes} {a b : Bytes}, a :: b :: l ⊆ l' → a ∈ l' ∧ b ∈ l' := by
    intro l l' a b hsub
    exact ⟨hsub List.mem_cons_self, hsub (List.mem_cons_of_mem _ List.mem_cons_self)⟩
  obtain hcon | ⟨s, rfl, hsymbol⟩ | ⟨b, rfl, hbytes⟩ | ⟨n, rfl, hint⟩ := value_cases hx htag hmem
  · exact absurd hcon hsome
  · obtain hcon | ⟨s', rfl, -⟩ | ⟨b, rfl, hother⟩ | ⟨n, rfl, hother⟩ := value_cases hy htag' hmem
    · exact absurd hcon hnone
    · have hdata := terminalHash_inj hfree (hpair hxs) (hpair hys) hhash
      have hdecoded := utf8Decode_utf8 s'
      rw [← hdata, utf8Decode_utf8 s] at hdecoded
      rw [Except.ok.inj hdecoded]
    · exact absurd (hsymbol.symm.trans hother) (by decide)
    · exact absurd (hsymbol.symm.trans hother) (by decide)
  · obtain hcon | ⟨s', rfl, hother⟩ | ⟨b', rfl, -⟩ | ⟨n, rfl, hother⟩ := value_cases hy htag' hmem
    · exact absurd hcon hnone
    · exact absurd (hbytes.symm.trans hother) (by decide)
    · rw [terminalHash_inj hfree (hpair hxs) (hpair hys) hhash]
    · exact absurd (hbytes.symm.trans hother) (by decide)
  · obtain hcon | ⟨s', rfl, hother⟩ | ⟨b', rfl, hother⟩ | ⟨n', rfl, -⟩ := value_cases hy htag' hmem
    · exact absurd hcon hnone
    · exact absurd (hint.symm.trans hother) (by decide)
    · exact absurd (hint.symm.trans hother) (by decide)
    · rw [hashInputs_int] at hxs hys
      have hfirst : ∀ {k : Int} {zs : List Bytes}, intInputs blake3 k ⊆ zs →
          encodeInt k ∈ zs ∧ 2 :: blake3 (encodeInt k) ∈ zs := fun hsub =>
        ⟨hsub (by simp [intInputs]), hsub (by simp [intInputs])⟩
      have hlast : ∀ {k : Int} {zs : List Bytes}, intInputs blake3 k ⊆ zs →
          intHashes blake3 k ∈ zs ∧ 0 :: blake3 (intHashes blake3 k) ∈ zs := fun hsub =>
        ⟨hsub (by simp [intInputs]), hsub (by simp [intInputs])⟩
      have hheads := (linkHash_inj hfree (hdigest _) (hdigest _) (hlast hxs) (hlast hys) hhash).1
      have hdata := terminalHash_inj hfree (hfirst hxs) (hfirst hys) hheads
      have hdecoded := decodeInt_encodeInt n'
      rw [← hdata, decodeInt_encodeInt] at hdecoded
      rw [hdecoded]

theorem equal_of_comparable {x y : Option Expr} {n : Nat}
    (hdigest : ∀ x, (node.blake3 x).length = 32) (hfree : CollisionFree node.blake3 (xs ++ ys))
    (hx : ∀ e, x = some e → Built node.blake3 e ∧ e.hashInputs node.blake3 ⊆ xs)
    (hy : ∀ e, y = some e → Built node.blake3 e ∧ e.hashInputs node.blake3 ⊆ ys)
    (hhash : ∀ e e', x = some e → y = some e' → e.hash node.blake3 = e'.hash node.blake3)
    (hn : depthOf x < n) (h : Comparable node.blake3 same x y) :
    exprEqualOf node n same x y = .ok true := by
  induction h generalizing n with
  | absent =>
    obtain ⟨n, rfl⟩ := Nat.exists_eq_add_one_of_ne_zero (Nat.ne_zero_of_lt hn)
    rfl
  | object h =>
    obtain ⟨n, rfl⟩ := Nat.exists_eq_add_one_of_ne_zero (Nat.ne_zero_of_lt hn)
    exact exprEqualOf_object h
  | @values same x y tag htag htag' hmem hvalue =>
    obtain ⟨n, rfl⟩ := Nat.exists_eq_add_one_of_ne_zero (Nat.ne_zero_of_lt hn)
    by_cases hobject : OneObject same x y
    · exact exprEqualOf_object hobject
    obtain ⟨hx, hxs⟩ := hx x rfl
    obtain ⟨hy, hys⟩ := hy y rfl
    have hlink : ¬(tag = "link" ∧ tag = "link") := by
      rintro ⟨rfl, -⟩
      exact absurd hmem (by decide)
    rw [exprEqualOf_tags hobject htag htag' hlink (hx.not_float htag)]
    refine congrArg Except.ok (decide_eq_true ⟨rfl, hmem, ?_⟩)
    exact value_of_hash hfree hdigest hx hy hxs hys htag htag' hmem hvalue (hhash x y rfl rfl)
  | @pair same x y hopens hhead htail ihhead ihtail =>
    obtain ⟨n, rfl⟩ := Nat.exists_eq_add_one_of_ne_zero (Nat.ne_zero_of_lt hn)
    obtain ⟨hx, hxs⟩ := hx x rfl
    obtain ⟨hy, hys⟩ := hy y rfl
    have hdepth : x.depth < n + 1 := hn
    have hsides := sides_of_cells hdigest hfree hx hy hxs hys hopens.2.1 hopens.2.2
      (hhash x y rfl rfl)
    have hheads := ihhead (n := n)
      (fun e he => ⟨hx.of_head he, List.Subset.trans (hashInputs_head hx he) hxs⟩)
      (fun e he => ⟨hy.of_head he, List.Subset.trans (hashInputs_head hy he) hys⟩) hsides.1
      (by have := depthOf_head x; omega)
    have htails := ihtail (n := n)
      (fun e he => ⟨hx.of_tail he, List.Subset.trans (hashInputs_tail he) hxs⟩)
      (fun e he => ⟨hy.of_tail he, List.Subset.trans (hashInputs_tail he) hys⟩) hsides.2
      (by have := depthOf_tail x; omega)
    rw [exprEqualOf_pair hopens, hheads]
    exact htails

end Agreement


section Operator

variable {node : Node} {same : Identity} {a b : Expr}

theorem Built.has_size {blake3 : Bytes → Bytes} {x : Expr} (hx : Built blake3 x) :
    ∃ n, x.size = .ok n := by
  induction hx with
  | nil | symbol _ | bytes _ | int _ | str _ => exact ⟨_, rfl⟩
  | @link h t _ _ _ _ ihhead ihtail =>
    have hside : ∀ {c : Child}, (∀ e, c = .loaded e → ∃ n, e.size = .ok n) →
        ∃ n, c.size = .ok n := by
      intro c hc
      cases c with
      | none | byHash _ => exact ⟨32, rfl⟩
      | loaded e =>
        rw [Child.size]
        exact hc e rfl
    obtain ⟨n, hn⟩ := hside ihhead
    obtain ⟨m, hm⟩ := hside ihtail
    have hsum : ∃ k, (do
        let hs ← h.size
        let ts ← t.size
        return hs + ts : Py Nat) = .ok k := by
      rw [hn, hm]
      exact ⟨n + m, rfl⟩
    rw [Expr.size.eq_def]
    dsimp only
    rw [payload?_of_none]
    dsimp only
    split
    · exact ⟨_, rfl⟩
    · rw [Child.size] at hn
      cases hn
    · exact hsum

/-- The operator pushes what the comparison gives. -/
theorem gives_isEq_iff (ha : Built node.blake3 a) (hb : Built node.blake3 b) (r : Bool) :
    Gives (handleStackIsEqOf node same) [a, b] (truth r) ↔
      exprEqualOf node (a.depth + 1) same (some a) (some b) = .ok r := by
  obtain ⟨n, hn⟩ := ha.has_size
  obtain ⟨m, hm⟩ := hb.has_size
  have hrun : ∀ c, handleStackIsEqOf node same (c.pushing [a, b]) =
      (do
        chargeBytes (min n m + 1 : Nat)
        push (truth (← .ofExcept (exprEqualOf node (a.depth + 1) same (some a) (some b)))) :
          CoreOp) c := by
    intro c
    rw [handleStackIsEqOf, bind_of_ok popTwo_pushing]
    dsimp only
    rw [hn, ofExcept_ok_bind, hm, ofExcept_ok_bind, Nat.cast_add, Nat.cast_min, Nat.cast_one]
  constructor
  · rintro ⟨cost, hgives⟩
    let c : Core := ⟨[], [], ⟨max cost (min n m + 1 : Nat), 0, 0⟩, Dict.empty⟩
    have hgiven := hgives c (by simp [c, Meter.total])
    rw [hrun, bind_of_ok (chargeBytes_apply (by simp [c, Meter.total]))] at hgiven
    rcases hresult : exprEqualOf node (a.depth + 1) same (some a) (some b) with e | r'
    · rw [hresult] at hgiven
      cases congrArg Prod.fst hgiven
    · rw [hresult, ofExcept_ok_bind] at hgiven
      have hstack := congrArg (fun p => p.2.stack.head?) hgiven
      have htruth : truth r' = truth r := Option.some.inj (Option.some.inj hstack)
      cases r <;> cases r' <;> first | rfl | exact absurd htruth (by decide)
  · intro h
    refine ⟨min n m + 1, fun c hroom => ?_⟩
    rw [hrun, h, ofExcept_ok_bind]
    exact push_apply hroom

/-- `is_eq` tells whether two exprs hash alike if and only if they hash alike and are comparable
wherever they are compared, or hash differently and show a difference. -/
theorem is_eq_is_hash_equality_iff (hdigest : ∀ x, (node.blake3 x).length = 32)
    (ha : Built node.blake3 a) (hb : Built node.blake3 b)
    (hfree : CollisionFree node.blake3 (a.hashInputs node.blake3 ++ b.hashInputs node.blake3)) :
    Gives (handleStackIsEqOf node same) [a, b]
        (truth (decide (a.hash node.blake3 = b.hash node.blake3))) ↔
      a.hash node.blake3 = b.hash node.blake3 ∧ Comparable node.blake3 same (some a) (some b) ∨
        a.hash node.blake3 ≠ b.hash node.blake3 ∧
          ShowsDifference node.blake3 same (some a) (some b) := by
  have hbuilt : ∀ e, some a = some e → Built node.blake3 e := fun e he => Option.some.inj he ▸ ha
  rw [gives_isEq_iff ha hb]
  by_cases hhash : a.hash node.blake3 = b.hash node.blake3
  · rw [decide_eq_true hhash]
    constructor
    · exact fun h => .inl ⟨hhash, comparable_of_equal hbuilt h⟩
    · rintro (⟨-, h⟩ | ⟨hne, -⟩)
      · refine equal_of_comparable hdigest hfree ?_ ?_ ?_ (Nat.lt_succ_self _) h
        · rintro e ⟨⟩
          exact ⟨ha, List.Subset.refl _⟩
        · rintro e ⟨⟩
          exact ⟨hb, List.Subset.refl _⟩
        · rintro e e' ⟨⟩ ⟨⟩
          exact hhash
      · exact absurd hhash hne
  · rw [decide_eq_false hhash]
    constructor
    · exact fun h => .inr ⟨hhash, showsDifference_of_unequal hbuilt h⟩
    · rintro (⟨heq, -⟩ | ⟨-, h⟩)
      · exact absurd heq hhash
      · exact unequal_of_showsDifference hbuilt (Nat.lt_succ_self _) h

end Operator

section Samples

/-- Two equal strings that are different objects compare unequal, and two cells that are known by
different hashes only compare equal. -/
theorem equal_strings_compare_unequal :
    (refTo (List.replicate 32 1)).hash sampleDigest ≠
        (refTo (List.replicate 32 2)).hash sampleDigest ∧
      ∀ node : Node,
        ¬Gives (handleStackIsEqOf node fun _ => false) [str_ "a", str_ "a"]
          (truth (decide ((str_ "a").hash node.blake3 = (str_ "a").hash node.blake3))) ∧
        Gives (handleStackIsEqOf node fun _ => false)
          [refTo (List.replicate 32 1), refTo (List.replicate 32 2)] (truth true) := by
  refine ⟨by decide +kernel, fun node => ⟨?_, ?_⟩⟩
  · rw [gives_isEq_iff (.str _) (.str _), decide_eq_true rfl]
    intro h
    exact absurd h (by rw [show exprEqualOf node _ _ _ _ = .ok false from rfl]; decide)
  · have hbuilt : ∀ n : UInt8, Built node.blake3 (refTo (List.replicate 32 n)) := by
      intro n
      refine .link (fun e h => nomatch h) (fun e h => nomatch h) ?_ ?_
      · rintro x (h | h)
        · obtain rfl := Child.byHash.inj h
          exact List.length_replicate
        · cases h
      · rintro tag ⟨⟩
        decide
    rw [gives_isEq_iff (hbuilt 1) (hbuilt 2)]
    rfl

theorem built_singleton {blake3 : Bytes → Bytes} (n : Int) :
    Built blake3 (exprsToLinkedExpr [int_ n]) := by
  refine .link ?_ ?_ ?_ ?_
  · rintro e ⟨⟩
    exact .int n
  · rintro e ⟨⟩
    exact .nil
  · rintro x (h | h)
    · cases h
    · cases h
  · rintro tag ⟨⟩
    decide

/-- The lists `(1)` and `(2)` show their difference. -/
theorem different_lists_are_told_apart :
    Gives (handleStackIsEqOf digestNode fun _ => false)
      [exprsToLinkedExpr [int_ 1], exprsToLinkedExpr [int_ 2]]
      (truth (decide ((exprsToLinkedExpr [int_ 1]).hash digestNode.blake3 =
        (exprsToLinkedExpr [int_ 2]).hash digestNode.blake3))) := by
  have hdigest : ∀ x, (digestNode.blake3 x).length = 32 := fun x => by
    simp [digestNode, sampleDigest]
  have hfree : CollisionFree digestNode.blake3
      ((exprsToLinkedExpr [int_ 1]).hashInputs digestNode.blake3 ++
        (exprsToLinkedExpr [int_ 2]).hashInputs digestNode.blake3) := by
    rw [CollisionFree]
    decide +kernel
  refine (is_eq_is_hash_equality_iff hdigest (built_singleton 1) (built_singleton 2) hfree).mpr
    (.inr ⟨by decide +kernel, ?_⟩)
  have hvalues : ShowsDifference digestNode.blake3 (Identity.head fun _ => false)
      (some (int_ 1)) (some (int_ 2)) :=
    .tags (by decide) rfl rfl (.inr (.inr ⟨by decide, by decide⟩))
  exact .head ⟨by decide, rfl, rfl⟩ hvalues

end Samples

end Astreum

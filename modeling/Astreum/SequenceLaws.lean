import Astreum.Operators

namespace Astreum

open Core Eff

/-- A machine with operands on its stack, the last one on top. -/
def Core.pushing (c : Core) (args : List Expr) : Core :=
  { c with stack := (args.map some).reverse ++ c.stack }

/-- A machine that was charged some bytes for a value on its stack. -/
def Core.leaving (c : Core) (cost : Nat) (result : Expr) : Core :=
  { c with
    stack := some result :: c.stack
    meter := { c.meter with eval := c.meter.eval + cost } }

/-- Over its operands an operator leaves one value, wherever the meter has room for its cost. -/
def Gives (op : CoreOp) (args : List Expr) (result : Expr) : Prop :=
  ∃ cost : Nat, ∀ c : Core, c.meter.total + cost ≤ c.meter.limit →
    op (c.pushing args) = (.ok (), c.leaving cost result)

/-- Over its operands an operator raises an `OpError`. -/
def Fails (op : CoreOp) (args : List Expr) : Prop :=
  ∀ c : Core, ∃ message c', op (c.pushing args) = (.error (.opError message), c')

section Sequences

/-- The sequences of the operators. -/
inductive Sequence where
  | bytes (data : Bytes)
  | str (s : String)
  | list (items : List Expr)

namespace Sequence

def expr : Sequence → Expr
  | bytes data => .bytes data
  | str s => str_ s
  | list items => exprsToLinkedExpr items

def items : Sequence → List Expr
  | bytes data => data.map fun b => .bytes [b]
  | str s => (chars s).map str_
  | list items => items

def length (a : Sequence) : Nat := a.items.length

def tag : Sequence → String
  | bytes _ => "bytes"
  | str _ => "str"
  | list _ => "link"

/-- Every element has a size: none is a bytes cell without bytes. -/
def HasSizes (a : Sequence) : Prop := ∀ e ∈ a.items, ∃ n, e.size = .ok n

/-- The sequence of the same kind with the elements of both. -/
def append? : Sequence → Sequence → Option Sequence
  | bytes x, bytes y => some (bytes (x ++ y))
  | str s, str s' => some (str (s ++ s'))
  | list xs, list ys => some (list (xs ++ ys))
  | _, _ => none

def take (k : Nat) : Sequence → Sequence
  | bytes data => bytes (data.take k)
  | str s => str (String.ofList (s.toList.take k))
  | list items => list (items.take k)

def drop (k : Nat) : Sequence → Sequence
  | bytes data => bytes (data.drop k)
  | str s => str (String.ofList (s.toList.drop k))
  | list items => list (items.drop k)

def reverse : Sequence → Sequence
  | bytes data => bytes data.reverse
  | str s => str (String.ofList s.toList.reverse)
  | list items => list items.reverse

end Sequence

end Sequences

section Runs

variable {node : Node} {a b : Sequence} {c : Core} {x y e : Expr} {n : Nat}

theorem when_bind {σ α : Type} {p : Prop} [Decidable p] (hp : ¬p) {x : Stateful σ Unit}
    {f : Unit → Stateful σ α} : (Eff.when p x >>= f) = f () := by
  rw [Eff.when, if_neg hp]
  rfl

theorem Core.popTwo_pushing : popTwo (c.pushing [x, y]) = (.ok (x, y), c) := rfl

theorem Core.pop_pushing : pop (c.pushing [x]) = (.ok x, c) := rfl

theorem Core.popRaw_pushing (args : List Expr) :
    popRaw (c.pushing (args ++ [x])) = (.ok (some x), c.pushing args) := by
  rw [Core.pushing, List.map_append, List.reverse_append]
  rfl

theorem Core.chargeBytes_apply (h : c.meter.total + n ≤ c.meter.limit) :
    chargeBytes n c =
      (.ok (), { c with meter := { c.meter with eval := c.meter.eval + n } }) := by
  have hmax : max 0 (n : Int) = n := max_eq_right (Int.natCast_nonneg n)
  have hroom : ¬c.meter.limit < c.meter.total + max 0 (n : Int) := by
    rw [hmax]
    exact not_lt.mpr h
  rw [chargeBytes, charge, read_bind, Eff.when, if_neg hroom]
  change (Except.ok (),
    { c with meter := { c.meter with eval := c.meter.eval + max 0 (n : Int) } }) =
    _
  rw [hmax]

theorem Core.push_apply (h : c.meter.total + n ≤ c.meter.limit) :
    (do chargeBytes n; push e : CoreOp) c = (.ok (), c.leaving n e) := by
  rw [bind_of_ok (chargeBytes_apply h)]
  rfl

theorem Core.pushSized_apply (hsize : e.size = .ok n) (h : c.meter.total + n ≤ c.meter.limit) :
    pushSized e c = (.ok (), c.leaving n e) := by
  have hcharge : chargeSize e c =
      (.ok (), { c with meter := { c.meter with eval := c.meter.eval + n } }) := by
    rw [chargeSize, hsize, ofExcept_ok_bind, chargeBytes_apply h]
  rw [pushSized, bind_of_ok hcharge]
  rfl

theorem tagOf_bytes (data : Bytes) (c : Core) :
    tagOf node (.bytes data) c = (.ok "bytes", c) := rfl

theorem tagOf_str (s : String) (c : Core) : tagOf node (str_ s) c = (.ok "str", c) := rfl

theorem tagOf_list (items : List Expr) (c : Core) :
    tagOf node (exprsToLinkedExpr items) c = (.ok "link", c) := by
  cases items with
  | nil => rfl
  | cons e items => cases items <;> rfl

theorem tagOf_int (k : Int) (c : Core) : tagOf node (int_ k) c = (.ok "int", c) := rfl

theorem tag_list (e : Expr) (items : List Expr) :
    node.tag (link e (exprsToLinkedExpr items)) = "link" := by
  cases items <;> rfl

theorem chainItems_list (items : List Expr) :
    chainItems node (exprsToLinkedExpr items) = items := by
  induction items with
  | nil => rfl
  | cons e items ih =>
    have htag : node.tag (link e (exprsToLinkedExpr items)) = "link" := tag_list e items
    change (chain node (link e (exprsToLinkedExpr items))).1 = e :: items
    rw [link] at htag ⊢
    rw [chain.eq_def]
    dsimp only
    rw [if_neg (not_not_intro htag)]
    cases items with
    | nil => rfl
    | cons e' items => exact congrArg (List.cons e) ih

theorem sizes_eq (es : List Expr) (h : ∀ e ∈ es, ∃ n, e.size = .ok n) : ∃ n, sizes es = .ok n := by
  induction es with
  | nil => exact ⟨0, rfl⟩
  | cons e es ih =>
    obtain ⟨n, hn⟩ := h e List.mem_cons_self
    obtain ⟨m, hm⟩ := ih fun e' he' => h e' (List.mem_cons_of_mem _ he')
    refine ⟨n + m, ?_⟩
    rw [sizes, hn, hm]
    rfl

theorem size_of_sizes {es : List Expr} (h : sizes es = .ok n) :
    ∀ e ∈ es, ∃ n, e.size = .ok n := by
  induction es generalizing n with
  | nil => exact fun e he => absurd he List.not_mem_nil
  | cons e es ih =>
    rw [sizes] at h
    obtain ⟨m, hm, h⟩ := except_bind_eq_ok.mp h
    obtain ⟨m', hm', -⟩ := except_bind_eq_ok.mp h
    exact List.forall_mem_cons.mpr ⟨⟨m, hm⟩, ih hm'⟩

theorem sizes_add {x y : Expr} {n m : Nat} (hx : x.size = .ok n) (hy : y.size = .ok m) :
    (do
      let hs ← (Child.loaded x).size
      let ts ← (Child.loaded y).size
      return hs + ts : Py Nat) = .ok (n + m) := by
  rw [Child.size, Child.size, hx, hy]
  rfl

theorem size_link {x y : Expr} (hx : ∃ n, x.size = .ok n) (hy : ∃ n, y.size = .ok n) :
    ∃ n, (link x y).size = .ok n := by
  obtain ⟨n, hn⟩ := hx
  obtain ⟨m, hm⟩ := hy
  rcases hpayload : payload? .none (.loaded y) with - | p
  · cases x with
    | bytes data => exact ⟨data.length, by simp only [link, Expr.size, hpayload]⟩
    | bytesOf e => cases hn
    | nil | symbol _ | link _ _ _ =>
      refine ⟨n + m, ?_⟩
      rw [link, Expr.size.eq_def]
      dsimp only
      rw [hpayload]
      exact sizes_add hn hm
  · refine ⟨p.length, ?_⟩
    rw [link, Expr.size.eq_def]
    dsimp only
    rw [hpayload]

theorem size_list (items : List Expr) (h : ∀ e ∈ items, ∃ n, e.size = .ok n) :
    ∃ n, (exprsToLinkedExpr items).size = .ok n := by
  induction items with
  | nil => exact ⟨64, rfl⟩
  | cons e items ih =>
    have htail := ih fun e' he' => h e' (List.mem_cons_of_mem _ he')
    exact size_link (h e List.mem_cons_self) htail

theorem splitChain_list (k : Nat) (items : List Expr) :
    splitChain node k (exprsToLinkedExpr items) =
      if k ≤ items.length then
        some (exprsToLinkedExpr (items.take k), exprsToLinkedExpr (items.drop k))
      else none := by
  induction k generalizing items with
  | zero => cases items <;> rfl
  | succ k ih =>
    cases items with
    | nil => rfl
    | cons e items =>
      have htag : node.tag (link e (exprsToLinkedExpr items)) = "link" := tag_list e items
      change splitChain node (k + 1) (link e (exprsToLinkedExpr items)) = _
      rw [link] at htag ⊢
      rw [splitChain, if_neg (not_not_intro htag)]
      dsimp only
      rcases k with - | k
      · rw [if_pos rfl, if_pos (by simp)]
        rfl
      rw [if_neg (Nat.succ_ne_zero k)]
      cases items with
      | nil =>
        have hnil : exprsToLinkedExpr [] = .nil := rfl
        rw [if_pos hnil, if_neg (by simp)]
      | cons e' items =>
        have hne : exprsToLinkedExpr (e' :: items) ≠ .nil := fun h => nomatch h
        rw [if_neg hne, ih]
        have hlength : k + 1 + 1 ≤ (e :: e' :: items).length ↔ k + 1 ≤ (e' :: items).length :=
          Nat.succ_le_succ_iff
        by_cases hk : k + 1 ≤ (e' :: items).length
        · rw [if_pos hk, if_pos (hlength.mpr hk)]
          rfl
        · rw [if_neg hk, if_neg (fun h => hk (hlength.mp h))]
          rfl

end Runs

section Operators

variable (node : Node) {a b ab : Sequence}

theorem Sequence.length_bytes (data : Bytes) : (bytes data).length = data.length :=
  List.length_map _

theorem Sequence.length_str (s : String) : (str s).length = s.toList.length := by
  rw [length, items, List.length_map, chars, List.length_map]

theorem gives_count (ha : a.HasSizes) :
    Gives (handleStackCount node) [a.expr] (int_ a.length) := by
  obtain ⟨n, hn⟩ : ∃ n, (int_ a.length).size = .ok n := ⟨_, rfl⟩
  cases a with
  | bytes data =>
    refine ⟨n, fun c hroom => ?_⟩
    rw [Sequence.length_bytes] at hn ⊢
    change handleStackCount node (c.pushing [.bytes data]) = _
    rw [handleStackCount, bind_of_ok pop_pushing, bind_of_ok (tagOf_bytes _ _)]
    exact pushSized_apply hn hroom
  | str s =>
    refine ⟨n, fun c hroom => ?_⟩
    rw [Sequence.length_str, String.length_toList] at hn ⊢
    change handleStackCount node (c.pushing [str_ s]) = _
    rw [handleStackCount, bind_of_ok pop_pushing, bind_of_ok (tagOf_str _ _)]
    exact pushSized_apply hn hroom
  | list items =>
    obtain ⟨m, hm⟩ := sizes_eq items ha
    refine ⟨items.length, fun c hroom => ?_⟩
    change handleStackCount node (c.pushing [exprsToLinkedExpr items]) = _
    rw [handleStackCount, bind_of_ok pop_pushing, bind_of_ok (tagOf_list _ _),
      if_neg (by decide), if_neg (by decide), if_pos rfl, chainItems_list, hm, ofExcept_ok_bind]
    exact push_apply hroom

theorem gives_concat (ha : a.HasSizes) (hb : b.HasSizes) (hab : a.append? b = some ab) :
    Gives (handleStackConcat node) [a.expr, b.expr] ab.expr := by
  cases a with
  | bytes x =>
    cases b with
    | bytes y =>
      cases hab
      refine ⟨(x ++ y).length, fun c hroom => ?_⟩
      change handleStackConcat node (c.pushing [.bytes x, .bytes y]) = _
      rw [handleStackConcat, bind_of_ok popTwo_pushing]
      dsimp only
      rw [bind_of_ok (tagOf_bytes _ _),
        bind_of_ok (tagOf_bytes _ _)]
      exact pushSized_apply rfl hroom
    | str _ | list _ => cases hab
  | str s =>
    cases b with
    | str s' =>
      cases hab
      refine ⟨utf8Length (s ++ s'), fun c hroom => ?_⟩
      change handleStackConcat node (c.pushing [str_ s, str_ s']) = _
      rw [handleStackConcat, bind_of_ok popTwo_pushing]
      dsimp only
      rw [bind_of_ok (tagOf_str _ _),
        bind_of_ok (tagOf_str _ _)]
      exact push_apply hroom
    | bytes _ | list _ => cases hab
  | list xs =>
    cases b with
    | list ys =>
      cases hab
      obtain ⟨n, hn⟩ := sizes_eq (xs ++ ys) fun e he =>
        (List.mem_append.mp he).elim (ha e) (hb e)
      refine ⟨n + (xs ++ ys).length, fun c hroom => ?_⟩
      change handleStackConcat node
        (c.pushing [exprsToLinkedExpr xs, exprsToLinkedExpr ys]) = _
      rw [handleStackConcat, bind_of_ok popTwo_pushing]
      dsimp only
      rw [bind_of_ok (tagOf_list _ _),
        bind_of_ok (tagOf_list _ _)]
      rw [when_bind (by decide), if_neg (by decide), if_neg (by decide), if_pos rfl,
        chainItems_list, chainItems_list, hn, ofExcept_ok_bind]
      exact push_apply hroom
    | bytes _ | str _ => cases hab

theorem gives_reverse (ha : a.HasSizes) :
    Gives (handleStackReverse node) [a.expr] a.reverse.expr := by
  cases a with
  | bytes data =>
    refine ⟨data.reverse.length, fun c hroom => ?_⟩
    change handleStackReverse node (c.pushing [.bytes data]) = _
    rw [handleStackReverse, bind_of_ok pop_pushing, bind_of_ok (tagOf_bytes _ _)]
    exact pushSized_apply rfl hroom
  | str s =>
    refine ⟨utf8Length s, fun c hroom => ?_⟩
    change handleStackReverse node (c.pushing [str_ s]) = _
    rw [handleStackReverse, bind_of_ok pop_pushing, bind_of_ok (tagOf_str _ _)]
    exact push_apply hroom
  | list items =>
    obtain ⟨m, hm⟩ := sizes_eq items ha
    refine ⟨m + items.length, fun c hroom => ?_⟩
    change handleStackReverse node (c.pushing [exprsToLinkedExpr items]) = _
    rw [handleStackReverse, bind_of_ok pop_pushing, bind_of_ok (tagOf_list _ _),
      if_neg (by decide), if_neg (by decide), if_pos rfl, chainItems_list, hm, ofExcept_ok_bind]
    exact push_apply hroom

theorem indexOperands_pushing {verb preposition tag : String} {x : Expr} (k : Int) (c : Core)
    (htag : tagOf node x c = (.ok tag, c)) :
    indexOperands node verb preposition (c.pushing [x, int_ k]) = (.ok (x, tag, .int k), c) := by
  have hindex : popRaw (c.pushing [x, int_ k]) = (.ok (some (int_ k)), c.pushing [x]) :=
    popRaw_pushing [x]
  have hvalue : popRaw (c.pushing [x]) = (.ok (some x), c) := popRaw_pushing []
  rw [indexOperands, bind_of_ok hindex, bind_of_ok hvalue]
  simp only [real, pure_bind]
  rw [bind_of_ok htag, bind_of_ok (tagOf_int k c), when_bind (by decide)]
  rfl

theorem outOfBounds_bind {f : Unit → CoreOp} (op kind : String) (k : Int) (n : Nat) (c : Core) :
    ∃ message c', (outOfBounds op k kind n >>= f) c = (.error (.opError message), c') :=
  ⟨_, c, rfl⟩

theorem ofExcept_int_bind {α : Type} (k : Int) (f : Int → Stateful Core α) :
    (Eff.ofExcept (Val.int k).toInt >>= f) = f k := rfl

theorem take_drop_one {α : Type} {l : List α} {k : Nat} {x : α} (h : l[k]? = some x) :
    (l.drop k).take 1 = [x] := by
  obtain ⟨hlt, rfl⟩ := List.getElem?_eq_some_iff.mp h
  rw [List.drop_eq_getElem_cons hlt]
  rfl

/-- Where the index is within the sequence, `index` gives the element there. -/
theorem gives_index {k : Nat} {e : Expr} (ha : a.HasSizes) (he : a.items[k]? = some e) :
    Gives (handleStackIndex node) [a.expr, int_ k] e := by
  cases a with
  | bytes data =>
    rw [Sequence.items, List.getElem?_map, Option.map_eq_some_iff] at he
    obtain ⟨b, hb, rfl⟩ := he
    have hlt : k < data.length := (List.getElem?_eq_some_iff.mp hb).1
    refine ⟨1, fun c hroom => ?_⟩
    change handleStackIndex node (c.pushing [.bytes data, int_ k]) = _
    rw [handleStackIndex, bind_of_ok (indexOperands_pushing node k c (tagOf_bytes _ _))]
    dsimp only
    rw [if_pos rfl, ofExcept_int_bind]
    change (if (k : Int) < 0 ∨ (data.length : Int) ≤ k then _ else _ : CoreOp) c = _
    rw [if_neg (by omega), Int.toNat_natCast, take_drop_one hb]
    exact push_apply hroom
  | str s =>
    rw [Sequence.items, List.getElem?_map, Option.map_eq_some_iff] at he
    obtain ⟨ch, hch, rfl⟩ := he
    have hlt : k < (chars s).length := (List.getElem?_eq_some_iff.mp hch).1
    refine ⟨utf8Length ch, fun c hroom => ?_⟩
    change handleStackIndex node (c.pushing [str_ s, int_ k]) = _
    rw [handleStackIndex, bind_of_ok (indexOperands_pushing node k c (tagOf_str _ _))]
    dsimp only
    rw [if_neg (by decide), if_pos rfl]
    change (if (k : Int) < 0 ∨ ((chars s).length : Int) ≤ k then _ else _ : CoreOp) c = _
    rw [if_neg (by omega), Int.toNat_natCast, List.getD_eq_getElem?_getD, hch]
    exact push_apply hroom
  | list items =>
    obtain ⟨n, hn⟩ := ha e (List.mem_of_getElem? he)
    refine ⟨n, fun c hroom => ?_⟩
    change handleStackIndex node (c.pushing [exprsToLinkedExpr items, int_ k]) = _
    rw [handleStackIndex, bind_of_ok (indexOperands_pushing node k c (tagOf_list _ _))]
    dsimp only
    rw [if_neg (by decide), if_neg (by decide), if_pos rfl, ofExcept_int_bind,
      when_bind (by omega), chainItems_list, Int.toNat_natCast]
    have he' : items[k]? = some e := he
    rw [he']
    exact pushSized_apply hn hroom

theorem fails_index {k : Int} (hk : k < 0 ∨ a.length ≤ k) :
    Fails (handleStackIndex node) [a.expr, int_ k] := by
  intro c
  cases a with
  | bytes data =>
    rw [Sequence.length_bytes] at hk
    change ∃ message c', handleStackIndex node (c.pushing [.bytes data, int_ k]) = _
    rw [handleStackIndex, bind_of_ok (indexOperands_pushing node k c (tagOf_bytes _ _))]
    dsimp only
    rw [if_pos rfl, ofExcept_int_bind]
    change ∃ message c', (if k < 0 ∨ (data.length : Int) ≤ k then _ else _ : CoreOp) c = _
    rw [if_pos hk]
    exact outOfBounds_bind _ _ _ _ c
  | str s =>
    rw [Sequence.length_str] at hk
    have hlength : (chars s).length = s.toList.length := List.length_map _
    change ∃ message c', handleStackIndex node (c.pushing [str_ s, int_ k]) = _
    rw [handleStackIndex, bind_of_ok (indexOperands_pushing node k c (tagOf_str _ _))]
    dsimp only
    rw [if_neg (by decide), if_pos rfl]
    change ∃ message c', (if k < 0 ∨ ((chars s).length : Int) ≤ k then _ else _ : CoreOp) c = _
    rw [if_pos (by omega)]
    exact outOfBounds_bind _ _ _ _ c
  | list items =>
    change ∃ message c', handleStackIndex node (c.pushing [exprsToLinkedExpr items, int_ k]) = _
    rw [handleStackIndex, bind_of_ok (indexOperands_pushing node k c (tagOf_list _ _))]
    dsimp only
    rw [if_neg (by decide), if_neg (by decide), if_pos rfl, ofExcept_int_bind]
    by_cases hneg : k < 0
    · rw [Eff.when, if_pos hneg]
      exact ⟨_, c, rfl⟩
    · have hlength : items.length ≤ k.toNat := by
        have hle := hk.resolve_left hneg
        change (items.length : Int) ≤ k at hle
        omega
      rw [when_bind hneg, chainItems_list, List.getElem?_eq_none hlength]
      exact ⟨_, c, rfl⟩

/-- The pair of the first `k` elements and the others. -/
def Sequence.pair (a : Sequence) (k : Nat) : Expr := link (a.take k).expr (a.drop k).expr

theorem gives_split {k : Nat} (ha : a.HasSizes) (hk : k ≤ a.length) :
    Gives (handleStackSplit node) [a.expr, int_ k] (a.pair k) := by
  cases a with
  | bytes data =>
    rw [Sequence.length_bytes] at hk
    refine ⟨data.length, fun c hroom => ?_⟩
    change handleStackSplit node (c.pushing [.bytes data, int_ k]) = _
    rw [handleStackSplit, bind_of_ok (indexOperands_pushing node k c (tagOf_bytes _ _))]
    dsimp only
    rw [if_pos rfl, ofExcept_int_bind]
    change (if (k : Int) < 0 ∨ (data.length : Int) < k then _ else _ : CoreOp) c = _
    rw [if_neg (by omega), Int.toNat_natCast]
    exact push_apply hroom
  | str s =>
    rw [Sequence.length_str] at hk
    refine ⟨utf8Length s, fun c hroom => ?_⟩
    change handleStackSplit node (c.pushing [str_ s, int_ k]) = _
    rw [handleStackSplit, bind_of_ok (indexOperands_pushing node k c (tagOf_str _ _))]
    dsimp only
    rw [if_neg (by decide), if_pos rfl]
    change (if (k : Int) < 0 ∨ (s.toList.length : Int) < k then _ else _ : CoreOp) c = _
    rw [if_neg (by omega), Int.toNat_natCast]
    exact push_apply hroom
  | list items =>
    have hitems : k ≤ items.length := hk
    obtain ⟨n, hn⟩ := size_list (items.take k) fun e he => ha e (List.mem_of_mem_take he)
    obtain ⟨m, hm⟩ := size_list (items.drop k) fun e he => ha e (List.mem_of_mem_drop he)
    refine ⟨if k = 0 then m else n + m, fun c hroom => ?_⟩
    change handleStackSplit node (c.pushing [exprsToLinkedExpr items, int_ k]) = _
    rw [handleStackSplit, bind_of_ok (indexOperands_pushing node k c (tagOf_list _ _))]
    dsimp only
    rw [if_neg (by decide), if_neg (by decide), if_pos rfl, ofExcept_int_bind,
      when_bind (by omega), Int.toNat_natCast, splitChain_list, if_pos hitems]
    dsimp only
    rw [hn, ofExcept_ok_bind, hm, ofExcept_ok_bind]
    have hcost : (if (k : Int) = 0 then (m : Int) else n + m) =
        ((if k = 0 then m else n + m : Nat) : Int) := by
      by_cases h : k = 0
      · rw [if_pos h, if_pos (by omega)]
      · rw [if_neg h, if_neg (by omega), Nat.cast_add]
    rw [hcost]
    exact push_apply hroom

theorem fails_split {k : Int} (hk : k < 0 ∨ a.length < k) :
    Fails (handleStackSplit node) [a.expr, int_ k] := by
  intro c
  cases a with
  | bytes data =>
    rw [Sequence.length_bytes] at hk
    change ∃ message c', handleStackSplit node (c.pushing [.bytes data, int_ k]) = _
    rw [handleStackSplit, bind_of_ok (indexOperands_pushing node k c (tagOf_bytes _ _))]
    dsimp only
    rw [if_pos rfl, ofExcept_int_bind]
    change ∃ message c', (if k < 0 ∨ (data.length : Int) < k then _ else _ : CoreOp) c = _
    rw [if_pos hk]
    exact outOfBounds_bind _ _ _ _ c
  | str s =>
    rw [Sequence.length_str] at hk
    change ∃ message c', handleStackSplit node (c.pushing [str_ s, int_ k]) = _
    rw [handleStackSplit, bind_of_ok (indexOperands_pushing node k c (tagOf_str _ _))]
    dsimp only
    rw [if_neg (by decide), if_pos rfl]
    change ∃ message c', (if k < 0 ∨ (s.toList.length : Int) < k then _ else _ : CoreOp) c = _
    rw [if_pos hk]
    exact outOfBounds_bind _ _ _ _ c
  | list items =>
    change ∃ message c', handleStackSplit node (c.pushing [exprsToLinkedExpr items, int_ k]) = _
    rw [handleStackSplit, bind_of_ok (indexOperands_pushing node k c (tagOf_list _ _))]
    dsimp only
    rw [if_neg (by decide), if_neg (by decide), if_pos rfl, ofExcept_int_bind]
    by_cases hneg : k < 0
    · rw [Eff.when, if_pos hneg]
      exact ⟨_, c, rfl⟩
    · have hlength : ¬k.toNat ≤ items.length := by
        have hlt := hk.resolve_left hneg
        change (items.length : Int) < k at hlt
        omega
      rw [when_bind hneg, splitChain_list, if_neg hlength]
      exact ⟨_, c, rfl⟩

theorem tagOf_expr (a : Sequence) (c : Core) : tagOf node a.expr c = (.ok a.tag, c) := by
  cases a with
  | bytes data => exact tagOf_bytes data c
  | str s => exact tagOf_str s c
  | list items => exact tagOf_list items c

theorem seqItems_expr (a : Sequence) (c : Core) :
    seqItems node a.tag a.expr c = (.ok a.items, c) := by
  cases a with
  | bytes data => rfl
  | str s => rfl
  | list items =>
    have hitems : chainItems node (exprsToLinkedExpr items) = items := chainItems_list items
    rw [Sequence.tag, Sequence.expr, seqItems, if_neg (by decide), if_neg (by decide), hitems]
    rfl

theorem chargeBytes_push {e : Expr} {c : Core} {m n : Nat}
    (h : c.meter.total + (m + n : Nat) ≤ c.meter.limit) :
    (do chargeBytes m; chargeBytes n; push e : CoreOp) c = (.ok (), c.leaving (m + n) e) := by
  have hm : c.meter.total + (m : Nat) ≤ c.meter.limit := by
    push_cast at h
    omega
  have hn : c.meter.eval + m + c.meter.storage + (n : Nat) ≤ c.meter.limit := by
    rw [Meter.total] at h
    push_cast at h
    omega
  rw [bind_of_ok (chargeBytes_apply hm)]
  have hpush := push_apply (e := e)
    (c := { c with meter := { c.meter with eval := c.meter.eval + m } }) hn
  rw [hpush]
  simp only [Core.leaving, Nat.cast_add, add_assoc]

/-- The pairs of the elements of two sequences. -/
def Sequence.zip (a b : Sequence) : List Expr :=
  (a.items.zip b.items).map fun p => link p.1 p.2

theorem gives_zip (ha : a.HasSizes) (hb : b.HasSizes) :
    Gives (handleStackZip node) [a.expr, b.expr] (exprsToLinkedExpr (a.zip b)) := by
  obtain ⟨n, hn⟩ : ∃ n, sizes ((a.items.zip b.items).flatMap fun p => [p.1, p.2]) = .ok n := by
    apply sizes_eq
    intro e he
    obtain ⟨p, hp, he⟩ := List.mem_flatMap.mp he
    have hmem := List.of_mem_zip hp
    rcases List.mem_pair.mp he with rfl | rfl
    · exact ha _ hmem.1
    · exact hb _ hmem.2
  have hlength : (a.zip b).length = (a.items.zip b.items).length := List.length_map _
  refine ⟨(a.zip b).length + (n + (a.zip b).length), fun c hroom => ?_⟩
  rw [hlength] at hroom ⊢
  have htag : ∀ a : Sequence, a.tag = "bytes" ∨ a.tag = "str" ∨ a.tag = "link" := by
    intro a
    cases a with
    | bytes _ => exact .inl rfl
    | str _ => exact .inr (.inl rfl)
    | list _ => exact .inr (.inr rfl)
  have hseq : ¬((!decide (a.tag = "bytes" ∨ a.tag = "str" ∨ a.tag = "link")) ∨
      (!decide (b.tag = "bytes" ∨ b.tag = "str" ∨ b.tag = "link"))) := by
    rw [decide_eq_true (htag a), decide_eq_true (htag b)]
    decide
  change handleStackZip node (c.pushing [a.expr, b.expr]) = _
  rw [handleStackZip, bind_of_ok popTwo_pushing]
  dsimp only
  rw [bind_of_ok (tagOf_expr node a c), bind_of_ok (tagOf_expr node b c), when_bind hseq,
    bind_of_ok (seqItems_expr node a c), bind_of_ok (seqItems_expr node b c), hn]
  exact chargeBytes_push hroom

end Operators

section Sizes

variable {a b ab : Sequence}

namespace Sequence

theorem hasSizes_bytes (data : Bytes) : (bytes data).HasSizes := by
  intro e he
  obtain ⟨b, -, rfl⟩ := List.mem_map.mp he
  exact ⟨1, rfl⟩

theorem hasSizes_str (s : String) : (str s).HasSizes := by
  intro e he
  obtain ⟨ch, -, rfl⟩ := List.mem_map.mp he
  exact ⟨_, rfl⟩

theorem items_append (hab : a.append? b = some ab) : ab.items = a.items ++ b.items := by
  cases a with
  | bytes x =>
    cases b with
    | bytes y =>
      cases hab
      exact List.map_append
    | str _ | list _ => cases hab
  | str s =>
    cases b with
    | str s' =>
      cases hab
      simp only [items, chars, String.toList_append, List.map_append]
    | bytes _ | list _ => cases hab
  | list xs =>
    cases b with
    | list ys =>
      cases hab
      rfl
    | bytes _ | str _ => cases hab

theorem items_take (a : Sequence) (k : Nat) : (a.take k).items = a.items.take k := by
  cases a with
  | bytes data => exact List.map_take
  | str s => simp only [take, items, chars, String.toList_ofList, List.map_take]
  | list items => rfl

theorem items_drop (a : Sequence) (k : Nat) : (a.drop k).items = a.items.drop k := by
  cases a with
  | bytes data => exact List.map_drop
  | str s => simp only [drop, items, chars, String.toList_ofList, List.map_drop]
  | list items => rfl

theorem items_reverse (a : Sequence) : a.reverse.items = a.items.reverse := by
  cases a with
  | bytes data => exact List.map_reverse
  | str s => simp only [reverse, items, chars, String.toList_ofList, List.map_reverse]
  | list items => rfl

theorem append?_take_drop (a : Sequence) (k : Nat) : (a.take k).append? (a.drop k) = some a := by
  cases a with
  | bytes data => exact congrArg (some ∘ bytes) (List.take_append_drop k data)
  | str s =>
    have hs : String.ofList (s.toList.take k) ++ String.ofList (s.toList.drop k) = s := by
      rw [← String.ofList_append, List.take_append_drop, String.ofList_toList]
    exact congrArg (some ∘ str) hs
  | list items => exact congrArg (some ∘ list) (List.take_append_drop k items)

theorem reverse_reverse (a : Sequence) : a.reverse.reverse = a := by
  cases a with
  | bytes data => exact congrArg bytes (List.reverse_reverse data)
  | str s =>
    have hs : String.ofList (String.ofList s.toList.reverse).toList.reverse = s := by
      rw [String.toList_ofList, List.reverse_reverse, String.ofList_toList]
    exact congrArg str hs
  | list items => exact congrArg list (List.reverse_reverse items)

theorem HasSizes.append (ha : a.HasSizes) (hb : b.HasSizes) (hab : a.append? b = some ab) :
    ab.HasSizes := by
  intro e he
  rw [items_append hab] at he
  exact (List.mem_append.mp he).elim (ha e) (hb e)

theorem HasSizes.take (ha : a.HasSizes) (k : Nat) : (a.take k).HasSizes := fun e he =>
  ha e (List.mem_of_mem_take (items_take a k ▸ he))

theorem HasSizes.drop (ha : a.HasSizes) (k : Nat) : (a.drop k).HasSizes := fun e he =>
  ha e (List.mem_of_mem_drop (items_drop a k ▸ he))

theorem HasSizes.reverse (ha : a.HasSizes) : a.reverse.HasSizes := fun e he =>
  ha e (List.mem_reverse.mp (items_reverse a ▸ he))

theorem HasSizes.zip (ha : a.HasSizes) (hb : b.HasSizes) : (list (a.zip b)).HasSizes := by
  intro e he
  obtain ⟨p, hp, rfl⟩ := List.mem_map.mp he
  have hmem := List.of_mem_zip hp
  exact size_link (ha _ hmem.1) (hb _ hmem.2)

end Sequence

/-- A sequence is counted only where its elements have sizes. -/
theorem hasSizes_of_count {node : Node} {e : Expr}
    (h : Gives (handleStackCount node) [a.expr] e) : a.HasSizes := by
  cases a with
  | bytes data => exact Sequence.hasSizes_bytes data
  | str s => exact Sequence.hasSizes_str s
  | list items =>
    obtain ⟨cost, h⟩ := h
    let c : Core := ⟨[], [], ⟨cost, 0, 0⟩, Dict.empty⟩
    have hcount := h c (by simp [c, Meter.total])
    change handleStackCount node (c.pushing [exprsToLinkedExpr items]) = _ at hcount
    rw [handleStackCount, bind_of_ok pop_pushing, bind_of_ok (tagOf_list _ _),
      if_neg (by decide), if_neg (by decide), if_pos rfl, chainItems_list] at hcount
    rcases hsizes : sizes items with err | n
    · rw [hsizes] at hcount
      cases congrArg Prod.fst hcount
    · exact size_of_sizes hsizes

end Sizes

section Laws

variable (node : Node)

/-- What `_split_link` makes of the list it splits: it sets the tail of the list's own `k`-th cell
to nil, so that the front of the pair is the operand itself. -/
def splitLeaves (k : Nat) (value : Expr) : Expr :=
  match splitChain node k value with
  | some (front, _) => if k = 0 then value else front
  | none => value

/-- A list with elements on both sides of the place `k`. -/
def CutInPlace (a : Sequence) (k : Int) : Prop :=
  ∃ items, a = .list items ∧ 0 < k ∧ k < a.length

/-- The parts of a sequence at `k`, which `concat` puts together again. -/
def SplitsAt (a : Sequence) (k : Int) : Prop :=
  ∃ left right : Sequence, left.length = k ∧ right.length = a.length - k ∧
    Gives (handleStackSplit node) [a.expr, int_ k] (link left.expr right.expr) ∧
    Gives (handleStackConcat node) [left.expr, right.expr] a.expr

/-- At `i` one sequence has the element that another has at `j`. -/
def AgreesAt (a : Sequence) (i : Nat) (b : Sequence) (j : Nat) : Prop :=
  ∃ e, Gives (handleStackIndex node) [a.expr, int_ i] e ∧
    Gives (handleStackIndex node) [b.expr, int_ j] e

structure ConcatLaws (a b ab : Sequence) : Prop where
  concat : Gives (handleStackConcat node) [a.expr, b.expr] ab.expr
  count : Gives (handleStackCount node) [ab.expr] (int_ (a.length + b.length : Nat))
  front : ∀ i < a.length, AgreesAt node ab i a i
  back : ∀ i < b.length, AgreesAt node ab (a.length + i) b i
  beyond : ∀ i : Int, i < 0 ∨ (a.length + b.length : Nat) ≤ i →
    Fails (handleStackIndex node) [ab.expr, int_ i]

structure ReverseLaws (a : Sequence) : Prop where
  reverse : Gives (handleStackReverse node) [a.expr] a.reverse.expr
  twice : Gives (handleStackReverse node) [a.reverse.expr] a.expr
  index : ∀ i < a.length, AgreesAt node a.reverse i a (a.length - 1 - i)

/-- The elements of two sequences are paired, as many as the shorter one has. -/
structure ZipLaws (a b pairs : Sequence) : Prop where
  zip : Gives (handleStackZip node) [a.expr, b.expr] pairs.expr
  count : Gives (handleStackCount node) [pairs.expr] (int_ (min a.length b.length : Nat))
  index : ∀ i < min a.length b.length, ∃ x y,
    Gives (handleStackIndex node) [a.expr, int_ i] x ∧
    Gives (handleStackIndex node) [b.expr, int_ i] y ∧
    Gives (handleStackIndex node) [pairs.expr, int_ i] (link x y)

structure SequenceLaws (a b : Sequence) (k : Int) : Prop where
  count : Gives (handleStackCount node) [a.expr] (int_ a.length) ∧
    Gives (handleStackCount node) [b.expr] (int_ b.length)
  concat : ∀ ab, a.append? b = some ab → ConcatLaws node a b ab
  split : 0 ≤ k → k ≤ a.length → SplitsAt node a k
  unsplit : k < 0 ∨ a.length < k → Fails (handleStackSplit node) [a.expr, int_ k]
  reverse : ReverseLaws node a
  zip : ∃ pairs, ZipLaws node a b (.list pairs)
  operand : splitLeaves node k.toNat a.expr = a.expr

variable {node} {a b ab : Sequence} {k : Int}

theorem agreesAt_of_items {i j : Nat} (ha : a.HasSizes) (hb : b.HasSizes) (hi : i < a.length)
    (h : a.items[i]? = b.items[j]?) : AgreesAt node a i b j := by
  have he : a.items[i]? = some a.items[i] := List.getElem?_eq_getElem hi
  exact ⟨_, gives_index node ha he, gives_index node hb (h ▸ he)⟩

theorem length_append (hab : a.append? b = some ab) : ab.length = a.length + b.length := by
  rw [Sequence.length, Sequence.items_append hab, List.length_append]
  rfl

theorem concatLaws (ha : a.HasSizes) (hb : b.HasSizes) (hab : a.append? b = some ab) :
    ConcatLaws node a b ab := by
  have hsizes := ha.append hb hab
  have hlength := length_append hab
  refine ⟨gives_concat node ha hb hab, ?_, fun i hi => ?_, fun i hi => ?_, fun i hi => ?_⟩
  · rw [← hlength]
    exact gives_count node hsizes
  · apply agreesAt_of_items hsizes ha (by omega)
    rw [Sequence.items_append hab, List.getElem?_append_left hi]
  · apply agreesAt_of_items hsizes hb (by omega)
    rw [Sequence.items_append hab, Sequence.length,
      List.getElem?_append_right (Nat.le_add_right _ i), Nat.add_sub_cancel_left]
  · rw [← hlength] at hi
    exact fails_index node hi

theorem splitsAt (ha : a.HasSizes) {k : Nat} (hk : k ≤ a.length) : SplitsAt node a k := by
  have hk' : k ≤ a.items.length := hk
  refine ⟨a.take k, a.drop k, ?_, ?_, gives_split node ha hk,
    gives_concat node (ha.take k) (ha.drop k) (Sequence.append?_take_drop a k)⟩
  · rw [Sequence.length, Sequence.items_take, List.length_take, min_eq_left hk']
  · rw [Sequence.length, Sequence.items_drop, List.length_drop, Sequence.length,
      Nat.cast_sub hk']

theorem reverseLaws (ha : a.HasSizes) : ReverseLaws node a := by
  refine ⟨gives_reverse node ha, ?_, fun i hi => ?_⟩
  · have htwice := gives_reverse node ha.reverse
    rwa [Sequence.reverse_reverse] at htwice
  · have hlength : a.reverse.length = a.length := by
      rw [Sequence.length, Sequence.items_reverse, List.length_reverse]
      rfl
    apply agreesAt_of_items ha.reverse ha (hlength ▸ hi)
    rw [Sequence.items_reverse, List.getElem?_reverse hi]
    rfl

theorem zipLaws (ha : a.HasSizes) (hb : b.HasSizes) : ZipLaws node a b (.list (a.zip b)) := by
  have hsizes := ha.zip hb
  have hlength : (Sequence.list (a.zip b)).length = min a.length b.length := by
    change (a.zip b).length = _
    rw [Sequence.zip, List.length_map, List.length_zip]
    rfl
  refine ⟨gives_zip node ha hb, hlength ▸ gives_count node hsizes, fun i hi => ?_⟩
  obtain ⟨hia, hib⟩ := lt_min_iff.mp hi
  have hx : a.items[i]? = some a.items[i] := List.getElem?_eq_getElem hia
  have hy : b.items[i]? = some b.items[i] := List.getElem?_eq_getElem hib
  have hxy : (Sequence.list (a.zip b)).items[i]? = some (link a.items[i] b.items[i]) := by
    change ((a.items.zip b.items).map fun p => link p.1 p.2)[i]? = _
    have hpair : (a.items.zip b.items)[i]? = some (a.items[i], b.items[i]) :=
      List.getElem?_zip_eq_some.mpr ⟨hx, hy⟩
    rw [List.getElem?_map, hpair]
    rfl
  exact ⟨_, _, gives_index node ha hx, gives_index node hb hy, gives_index node hsizes hxy⟩

theorem exprsToLinkedExpr_inj {xs ys : List Expr}
    (h : exprsToLinkedExpr xs = exprsToLinkedExpr ys) : xs = ys := by
  induction xs generalizing ys with
  | nil =>
    cases ys with
    | nil => rfl
    | cons y ys => cases h
  | cons x xs ih =>
    cases ys with
    | nil => cases h
    | cons y ys =>
      have hcell : link x (exprsToLinkedExpr xs) = link y (exprsToLinkedExpr ys) := h
      obtain ⟨-, hx, hxs⟩ := Expr.link.inj hcell
      rw [Child.loaded.inj hx, ih (Child.loaded.inj hxs)]

/-- The operand stays as it was, but for a list that is cut between two of its elements. -/
theorem splitLeaves_eq_iff :
    splitLeaves node k.toNat a.expr = a.expr ↔ ¬CutInPlace a k := by
  cases a with
  | bytes data =>
    have hcut : ¬CutInPlace (.bytes data) k := fun ⟨_, h, _⟩ => nomatch h
    rcases hn : k.toNat with - | n <;> exact ⟨fun _ => hcut, fun _ => rfl⟩
  | str s =>
    have hcut : ¬CutInPlace (.str s) k := fun ⟨_, h, _⟩ => nomatch h
    rcases hn : k.toNat with - | n <;> exact ⟨fun _ => hcut, fun _ => rfl⟩
  | list items =>
    have hcut : CutInPlace (.list items) k ↔ 0 < k.toNat ∧ k.toNat < items.length := by
      constructor
      · rintro ⟨_, -, hpos, hlt⟩
        change k < items.length at hlt
        omega
      · rintro ⟨hpos, hlt⟩
        exact ⟨items, rfl, by omega, by change k < items.length; omega⟩
    change splitLeaves node k.toNat (exprsToLinkedExpr items) = exprsToLinkedExpr items ↔ _
    rw [hcut, splitLeaves, splitChain_list]
    generalize k.toNat = n
    by_cases hn : n ≤ items.length
    · rw [if_pos hn]
      dsimp only
      by_cases hzero : n = 0
      · rw [if_pos hzero]
        exact iff_of_true rfl fun h => hzero.not_gt h.1
      · rw [if_neg hzero]
        constructor
        · intro h hcut
          have htake := congrArg List.length (exprsToLinkedExpr_inj h)
          rw [List.length_take] at htake
          omega
        · intro h
          rw [List.take_of_length_le (by omega)]
    · rw [if_neg hn]
      exact iff_of_true rfl fun h => hn h.2.le

/-- The laws of the sequences hold but for elements without sizes and but for the split of a list
between two of its elements, which cuts its operand. -/
theorem sequence_laws_iff (node : Node) (a b : Sequence) (k : Int) :
    SequenceLaws node a b k ↔ a.HasSizes ∧ b.HasSizes ∧ ¬CutInPlace a k := by
  constructor
  · intro h
    exact ⟨hasSizes_of_count h.count.1, hasSizes_of_count h.count.2,
      splitLeaves_eq_iff.mp h.operand⟩
  · rintro ⟨ha, hb, hcut⟩
    refine ⟨⟨gives_count node ha, gives_count node hb⟩, fun ab hab => concatLaws ha hb hab,
      fun hzero hk => ?_, fun hk => fails_split node hk, reverseLaws ha, ⟨_, zipLaws ha hb⟩,
      splitLeaves_eq_iff.mpr hcut⟩
    obtain ⟨n, rfl⟩ := Int.eq_ofNat_of_zero_le hzero
    exact splitsAt ha (by omega)

/-- A list of two numbers that is split at 1 has one element left. -/
theorem split_list_is_cut : exprsToLinkedExpr [int_ 1] ≠ exprsToLinkedExpr [int_ 1, int_ 2] ∧
    ∀ node : Node,
      splitLeaves node 1 (exprsToLinkedExpr [int_ 1, int_ 2]) = exprsToLinkedExpr [int_ 1] ∧
        ¬SequenceLaws node (.list [int_ 1, int_ 2]) (.list []) 1 := by
  have hne : exprsToLinkedExpr [int_ 1] ≠ exprsToLinkedExpr [int_ 1, int_ 2] := by decide
  exact ⟨hne, fun node => ⟨rfl, fun h => hne h.operand⟩⟩

end Laws

end Astreum

import Astreum.Cells

namespace Astreum

/-- A rule of a shape. -/
inductive ShapeRule where
  | hold
  | send
  | pair (head tail : ShapeRule)
  | rep (head : ShapeRule)
  deriving DecidableEq

def maxShapeDepth : Nat := 128

/-- `read` of `parse_shape`, with the depth that is left. -/
def readRule : Nat → Bytes → Py (ShapeRule × Bytes)
  | 0, _ => .error .valueError
  | _ + 1, [] => .error .valueError
  | depth + 1, op :: data =>
    if op = 0 then .ok (.hold, data)
    else if op = 1 then .ok (.send, data)
    else if op = 2 then do
      let (head, data) ← readRule depth data
      let (tail, data) ← readRule depth data
      return (.pair head tail, data)
    else if op = 3 then do
      let (head, data) ← readRule depth data
      return (.rep head, data)
    else .error .valueError

def parseShape (data : Bytes) : Py ShapeRule := do
  expect (data ≠ [])
  let (rule, rest) ← readRule maxShapeDepth data
  expect (rest = [])
  return rule

/-- The rules for what a link names by its hashes. -/
def rulesBelow (rule : ShapeRule) (head tail : Bytes) : List (ShapeRule × Bytes) :=
  match rule with
  | .pair headRule tailRule => [(headRule, head), (tailRule, tail)]
  | .rep headRule => [(headRule, head), (rule, tail)]
  | _ => []

section Walk

variable (node : Node)

/-- Hashes that a walk passes over: the zero hash and those of the builtin type symbols. -/
def skipsHash (h : Bytes) : Bool :=
  decide (h = [] ∨ h = zero32) ||
    (builtinTypeOfHash node.blake3 h).any fun name => decide (name ∈ builtinCompositeTypeNames)

def belowCell (rule : ShapeRule) (e : Expr) : List (ShapeRule × Bytes) :=
  if e.base = .link then
    rulesBelow rule (e.getHeadHash node.blake3) (e.getTailHash node.blake3)
  else []

/-- The loop of `walk_shape`: the exprs found, each under its hash, and the hashes missed. -/
def walkShapeFrom : Nat → List (ShapeRule × Bytes) → List (Bytes × Expr) → List Bytes →
    Py (List (Bytes × Expr) × List Bytes)
  | _, [], found, missing => .ok (found, missing)
  | 0, _ :: _, _, _ => .error .outOfFuel
  | fuel + 1, (rule, h) :: stack, found, missing =>
    if rule = .hold ∨ skipsHash node h = true then walkShapeFrom fuel stack found missing
    else match node.stored h with
      | none => walkShapeFrom fuel stack found (if h ∈ missing then missing else missing ++ [h])
      | some e =>
        walkShapeFrom fuel (belowCell node rule e ++ stack)
          (if h ∈ found.map Prod.fst then found else found ++ [(h, e)]) missing

/-- `walk_shape` over the local storage of the node. -/
def walkShape (rule : ShapeRule) (rootHash : Bytes) : Py (List Expr × List Bytes) := do
  let (found, missing) ← walkShapeFrom node node.fuel [(rule, rootHash)] [] []
  return (found.map Prod.snd, missing)

/-- What a rule at a hash reaches. -/
inductive ShapeReaches : ShapeRule → Bytes → Bytes → Prop
  | here {rule : ShapeRule} {h : Bytes} {e : Expr} (hrule : rule ≠ .hold)
      (hskip : skipsHash node h = false) (hget : node.stored h = some e) : ShapeReaches rule h h
  | under {rule : ShapeRule} {h x : Bytes} {e : Expr} {q : ShapeRule × Bytes}
      (hrule : rule ≠ .hold) (hskip : skipsHash node h = false) (hget : node.stored h = some e)
      (hq : q ∈ belowCell node rule e) (hx : ShapeReaches q.1 q.2 x) : ShapeReaches rule h x

end Walk

section Spec

variable {node : Node} {rule : ShapeRule} {h x : Bytes}

theorem ShapeReaches.start (hreach : ShapeReaches node rule h x) :
    rule ≠ .hold ∧ skipsHash node h = false ∧ ∃ e, node.stored h = some e := by
  cases hreach with
  | here hrule hskip hget => exact ⟨hrule, hskip, _, hget⟩
  | under hrule hskip hget _ _ => exact ⟨hrule, hskip, _, hget⟩

/-- What is reached is held. -/
theorem ShapeReaches.stored (hreach : ShapeReaches node rule h x) :
    skipsHash node x = false ∧ ∃ e, node.stored x = some e := by
  induction hreach with
  | here _ hskip hget => exact ⟨hskip, _, hget⟩
  | under _ _ _ _ _ ih => exact ih

theorem shapeReaches_iff {e : Expr} (hrule : rule ≠ .hold) (hskip : skipsHash node h = false)
    (hget : node.stored h = some e) :
    ShapeReaches node rule h x ↔
      x = h ∨ ∃ q ∈ belowCell node rule e, ShapeReaches node q.1 q.2 x := by
  constructor
  · intro hreach
    cases hreach with
    | here => exact .inl rfl
    | under _ _ hget' hq hx =>
      obtain rfl := Option.some.inj (hget.symm.trans hget')
      exact .inr ⟨_, hq, hx⟩
  · rintro (rfl | ⟨q, hq, hx⟩)
    · exact .here hrule hskip hget
    · exact .under hrule hskip hget hq hx

/-- The walk finds what the rules on its stack reach. -/
theorem mem_walkShapeFrom {fuel : Nat} {stack : List (ShapeRule × Bytes)}
    {found out : List (Bytes × Expr)} {missing missed : List Bytes}
    (hrun : walkShapeFrom node fuel stack found missing = .ok (out, missed))
    (hfound : ∀ p ∈ found, node.stored p.1 = some p.2) (p : Bytes × Expr) :
    p ∈ out ↔ p ∈ found ∨
      node.stored p.1 = some p.2 ∧ ∃ q ∈ stack, ShapeReaches node q.1 q.2 p.1 := by
  induction fuel generalizing stack found missing with
  | zero =>
    cases stack with
    | nil =>
      cases hrun
      simp
    | cons q stack => cases hrun
  | succ fuel ih =>
    rcases stack with - | ⟨⟨rule, h⟩, stack⟩
    · cases hrun
      simp
    rw [walkShapeFrom] at hrun
    split at hrun
    · rename_i hpass
      have hnone : ¬ShapeReaches node rule h p.1 := by
        intro hreach
        obtain ⟨hrule, hskip, -⟩ := hreach.start
        rcases hpass with hpass | hpass
        · exact hrule hpass
        · rw [hskip] at hpass
          cases hpass
      rw [ih hrun hfound]
      simp [hnone]
    rename_i hpass
    obtain ⟨hrule, hskip⟩ := not_or.mp hpass
    split at hrun
    · rename_i hget
      have hnone : ¬ShapeReaches node rule h p.1 := by
        intro hreach
        obtain ⟨-, -, e, he⟩ := hreach.start
        rw [hget] at he
        cases he
      rw [ih hrun hfound]
      simp [hnone]
    · rename_i e hget
      have hreach : ShapeReaches node rule h p.1 ↔
          p.1 = h ∨ ∃ q ∈ belowCell node rule e, ShapeReaches node q.1 q.2 p.1 :=
        shapeReaches_iff hrule (Bool.eq_false_of_not_eq_true hskip) hget
      have hmem : ∀ p' : Bytes × Expr,
          p' ∈ (if h ∈ found.map Prod.fst then found else found ++ [(h, e)]) ↔
            p' ∈ found ∨ p' = (h, e) := by
        intro p'
        split
        · rename_i hin
          obtain ⟨p₀, hp₀, rfl⟩ := List.mem_map.mp hin
          have hsame : p₀ = (p₀.1, e) := by
            have hval := Option.some.inj ((hfound p₀ hp₀).symm.trans hget)
            rw [← hval]
          constructor
          · exact .inl
          · rintro (hp | rfl)
            · exact hp
            · rwa [← hsame]
        · rw [List.mem_append, List.mem_singleton]
      have hfound' : ∀ p' ∈ (if h ∈ found.map Prod.fst then found else found ++ [(h, e)]),
          node.stored p'.1 = some p'.2 := by
        intro p' hp'
        rcases (hmem p').mp hp' with hp' | rfl
        · exact hfound p' hp'
        · exact hget
      have hself : p = (h, e) ↔ node.stored p.1 = some p.2 ∧ p.1 = h := by
        constructor
        · rintro rfl
          exact ⟨hget, rfl⟩
        · rintro ⟨hp, rfl⟩
          rw [hp] at hget
          rw [← Option.some.inj hget]
      rw [ih hrun hfound', hmem, hself]
      simp only [List.mem_append, List.mem_cons, or_and_right, exists_or, exists_eq_left]
      rw [hreach]
      constructor
      · rintro ((hp | ⟨hs, hp⟩) | ⟨hs, hq | hq⟩)
        · exact .inl hp
        · exact .inr ⟨hs, .inl (.inl hp)⟩
        · exact .inr ⟨hs, .inl (.inr hq)⟩
        · exact .inr ⟨hs, .inr hq⟩
      · rintro (hp | ⟨hs, (hp | hq) | hq⟩)
        · exact .inl (.inl hp)
        · exact .inl (.inr ⟨hs, hp⟩)
        · exact .inr ⟨hs, .inl hq⟩
        · exact .inr ⟨hs, .inr hq⟩

theorem nodup_walkShapeFrom {fuel : Nat} {stack : List (ShapeRule × Bytes)}
    {found out : List (Bytes × Expr)} {missing missed : List Bytes}
    (hrun : walkShapeFrom node fuel stack found missing = .ok (out, missed))
    (hfound : (found.map Prod.fst).Nodup) : (out.map Prod.fst).Nodup ∧ found <+: out := by
  induction fuel generalizing stack found missing with
  | zero =>
    cases stack with
    | nil =>
      cases hrun
      exact ⟨hfound, List.prefix_rfl⟩
    | cons q stack => cases hrun
  | succ fuel ih =>
    rcases stack with - | ⟨⟨rule, h⟩, stack⟩
    · cases hrun
      exact ⟨hfound, List.prefix_rfl⟩
    rw [walkShapeFrom] at hrun
    split at hrun
    · exact ih hrun hfound
    split at hrun
    · exact ih hrun hfound
    · split at hrun
      · exact ih hrun hfound
      · rename_i hnew
        obtain ⟨hnodup, hprefix⟩ := ih hrun (by
          rw [← List.concat_eq_append, List.map_concat]
          exact hfound.concat hnew)
        exact ⟨hnodup, (List.prefix_append _ _).trans hprefix⟩

end Spec

end Astreum

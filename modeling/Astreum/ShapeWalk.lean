import Astreum.Shapes
import Astreum.Rollback

namespace Astreum

section Parse

def holdShape : Bytes := [0]

def sendShape : Bytes := [1]

def intShape : Bytes := [2, 1, 0]

/-- `pair` -/
def pairShape (headRule tailRule : Bytes) : Bytes := 2 :: headRule ++ tailRule

/-- `repeat` -/
def repeatShape (headRule : Bytes) : Bytes := 3 :: headRule

/-- A shape that was built, and its rule tree. -/
inductive BuiltShape : Bytes → ShapeRule → Prop
  | hold : BuiltShape holdShape .hold
  | send : BuiltShape sendShape .send
  | int : BuiltShape intShape (.pair .send .hold)
  | pair {head tail : Bytes} {r r' : ShapeRule} (hhead : BuiltShape head r)
      (htail : BuiltShape tail r') : BuiltShape (pairShape head tail) (.pair r r')
  | rep {head : Bytes} {r : ShapeRule} (hhead : BuiltShape head r) :
      BuiltShape (repeatShape head) (.rep r)

/-- The only shape of a rule tree. -/
def ShapeRule.shape : ShapeRule → Bytes
  | .hold => holdShape
  | .send => sendShape
  | .pair head tail => pairShape head.shape tail.shape
  | .rep head => repeatShape head.shape

def ShapeRule.depth : ShapeRule → Nat
  | .hold | .send => 1
  | .pair head tail => max head.depth tail.depth + 1
  | .rep head => head.depth + 1

theorem builtShape_iff {data : Bytes} {rule : ShapeRule} :
    BuiltShape data rule ↔ data = rule.shape := by
  constructor
  · intro hbuilt
    induction hbuilt with
    | hold | send | int => rfl
    | pair _ _ ihhead ihtail => rw [ihhead, ihtail, ShapeRule.shape]
    | rep _ ih => rw [ih, ShapeRule.shape]
  · rintro rfl
    induction rule with
    | hold => exact .hold
    | send => exact .send
    | pair head tail ihhead ihtail => exact .pair ihhead ihtail
    | rep head ih => exact .rep ih

theorem ShapeRule.depth_pos (rule : ShapeRule) : 0 < rule.depth := by
  cases rule <;> simp [ShapeRule.depth]

/-- A rule is read where its shape stands, when it is not too deep. -/
theorem readRule_eq_ok {depth : Nat} {data rest : Bytes} {rule : ShapeRule} :
    readRule depth data = .ok (rule, rest) ↔
      data = rule.shape ++ rest ∧ rule.depth ≤ depth := by
  induction depth generalizing data rest rule with
  | zero =>
    have hpos := rule.depth_pos
    constructor
    · intro h
      cases h
    · rintro ⟨-, h⟩
      omega
  | succ depth ih =>
    cases data with
    | nil =>
      constructor
      · intro h
        cases h
      · rintro ⟨h, -⟩
        cases rule <;> cases h
    | cons op data =>
      rw [readRule]
      by_cases h₀ : op = 0
      · rw [if_pos h₀, h₀]
        cases rule <;>
          simp [ShapeRule.shape, ShapeRule.depth, holdShape, sendShape, pairShape, repeatShape]
      rw [if_neg h₀]
      by_cases h₁ : op = 1
      · rw [if_pos h₁, h₁]
        cases rule <;>
          simp [ShapeRule.shape, ShapeRule.depth, holdShape, sendShape, pairShape, repeatShape]
      rw [if_neg h₁]
      by_cases h₂ : op = 2
      · rw [if_pos h₂, h₂]
        constructor
        · intro hread
          obtain ⟨⟨head, data'⟩, hhead, hread⟩ := except_bind_eq_ok.mp hread
          obtain ⟨⟨tail, data''⟩, htail, hread⟩ := except_bind_eq_ok.mp hread
          cases hread
          obtain ⟨rfl, hheadDepth⟩ := ih.mp hhead
          obtain ⟨rfl, htailDepth⟩ := ih.mp htail
          constructor
          · simp [ShapeRule.shape, pairShape]
          · simp only [ShapeRule.depth]
            omega
        · rintro ⟨hdata, hdepth⟩
          cases rule with
          | hold | send | rep => cases hdata
          | pair head tail =>
            simp only [ShapeRule.depth] at hdepth
            have hhead : readRule depth data = .ok (head, tail.shape ++ rest) := by
              rw [ih]
              constructor
              · simpa [ShapeRule.shape, pairShape] using hdata
              · omega
            have htail : readRule depth (tail.shape ++ rest) = .ok (tail, rest) :=
              ih.mpr ⟨rfl, by omega⟩
            rw [hhead, py_ok_bind]
            dsimp only
            rw [htail]
            rfl
      rw [if_neg h₂]
      by_cases h₃ : op = 3
      · rw [if_pos h₃, h₃]
        constructor
        · intro hread
          obtain ⟨⟨head, data'⟩, hhead, hread⟩ := except_bind_eq_ok.mp hread
          cases hread
          obtain ⟨rfl, hdepth⟩ := ih.mp hhead
          exact ⟨rfl, Nat.succ_le_succ hdepth⟩
        · rintro ⟨hdata, hdepth⟩
          cases rule with
          | hold | send | pair => cases hdata
          | rep head =>
            have hhead : readRule depth data = .ok (head, rest) :=
              ih.mpr ⟨(List.cons.inj hdata).2, Nat.le_of_succ_le_succ hdepth⟩
            rw [hhead]
            rfl
      rw [if_neg h₃]
      constructor
      · intro h
        cases h
      · rintro ⟨h, -⟩
        cases rule <;> simp_all [ShapeRule.shape, holdShape, sendShape, pairShape, repeatShape]

/-- `read` raises nothing but a `ValueError`. -/
theorem readRule_error {depth : Nat} {data : Bytes} {err : PyError}
    (hread : readRule depth data = .error err) : err = .valueError := by
  induction depth generalizing data err with
  | zero =>
    cases hread
    rfl
  | succ depth ih =>
    cases data with
    | nil =>
      cases hread
      rfl
    | cons op data =>
      rw [readRule] at hread
      split at hread
      · cases hread
      split at hread
      · cases hread
      split at hread
      · rcases hhead : readRule depth data with err' | ⟨head, data'⟩
        · rw [hhead] at hread
          cases hread
          exact ih hhead
        rw [hhead, py_ok_bind] at hread
        dsimp only at hread
        rcases htail : readRule depth data' with err' | ⟨tail, data''⟩
        · rw [htail] at hread
          cases hread
          exact ih htail
        · rw [htail] at hread
          cases hread
      split at hread
      · rcases hhead : readRule depth data with err' | ⟨head, data'⟩
        · rw [hhead] at hread
          cases hread
          exact ih hhead
        · rw [hhead] at hread
          cases hread
      · cases hread
        rfl

theorem ShapeRule.shape_ne_nil (rule : ShapeRule) : rule.shape ≠ [] := by
  cases rule <;> simp [ShapeRule.shape, holdShape, sendShape, pairShape, repeatShape]

theorem parseShape_eq_ok {data : Bytes} {rule : ShapeRule} :
    parseShape data = .ok rule ↔ BuiltShape data rule ∧ rule.depth ≤ maxShapeDepth := by
  rw [builtShape_iff]
  constructor
  · intro hparse
    obtain ⟨-, -, hparse⟩ := except_bind_eq_ok.mp hparse
    obtain ⟨⟨rule', rest⟩, hread, hparse⟩ := except_bind_eq_ok.mp hparse
    obtain ⟨u, hrest, hparse⟩ := except_bind_eq_ok.mp hparse
    cases hparse
    obtain rfl : rest = [] := expect_eq_ok.mp hrest
    simpa using readRule_eq_ok.mp hread
  · rintro ⟨rfl, hdepth⟩
    have hread : readRule maxShapeDepth rule.shape = .ok (rule, []) :=
      readRule_eq_ok.mpr ⟨(List.append_nil _).symm, hdepth⟩
    have hne : expect (rule.shape ≠ []) = .ok () := expect_eq_ok.mpr rule.shape_ne_nil
    rw [parseShape, hne, py_ok_bind, hread]
    rfl

theorem parseShape_error {data : Bytes} {err : PyError} (hparse : parseShape data = .error err) :
    err = .valueError := by
  rw [parseShape, expect] at hparse
  split at hparse
  · rw [py_ok_bind] at hparse
    rcases hread : readRule maxShapeDepth data with err' | ⟨rule, rest⟩
    · rw [hread] at hparse
      cases hparse
      exact readRule_error hread
    · rw [hread, py_ok_bind] at hparse
      dsimp only [expect] at hparse
      split at hparse
      · cases hparse
      · cases hparse
        rfl
  · cases hparse
    rfl

end Parse

section Walk

variable (node : Node)

/-- The pairs of a rule and a hash that the walk goes on with. -/
def ShapeBelow (q' q : ShapeRule × Bytes) : Prop :=
  q.1 ≠ .hold ∧ skipsHash node q.2 = false ∧
    ∃ e, node.stored q.2 = some e ∧ q' ∈ belowCell node q.1 e

/-- The hashes that a rule at a hash reaches and the storage lacks. -/
inductive ShapeMisses : ShapeRule → Bytes → Bytes → Prop
  | here {rule : ShapeRule} {h : Bytes} (hrule : rule ≠ .hold)
      (hskip : skipsHash node h = false) (hget : node.stored h = none) : ShapeMisses rule h h
  | under {rule : ShapeRule} {h x : Bytes} {q : ShapeRule × Bytes}
      (hq : ShapeBelow node q (rule, h)) (hx : ShapeMisses q.1 q.2 x) : ShapeMisses rule h x

variable {node} {rule : ShapeRule} {h x : Bytes}

theorem ShapeMisses.start (hmiss : ShapeMisses node rule h x) :
    rule ≠ .hold ∧ skipsHash node h = false := by
  cases hmiss with
  | here hrule hskip _ => exact ⟨hrule, hskip⟩
  | under hq _ => exact ⟨hq.1, hq.2.1⟩

theorem shapeMisses_of_none (hrule : rule ≠ .hold) (hskip : skipsHash node h = false)
    (hget : node.stored h = none) : ShapeMisses node rule h x ↔ x = h := by
  constructor
  · intro hmiss
    cases hmiss with
    | here => rfl
    | under hq _ =>
      obtain ⟨-, -, e, he, -⟩ := hq
      rw [hget] at he
      cases he
  · rintro rfl
    exact .here hrule hskip hget

theorem shapeMisses_of_some {e : Expr} (hrule : rule ≠ .hold) (hskip : skipsHash node h = false)
    (hget : node.stored h = some e) :
    ShapeMisses node rule h x ↔ ∃ q ∈ belowCell node rule e, ShapeMisses node q.1 q.2 x := by
  constructor
  · intro hmiss
    cases hmiss with
    | here _ _ hnone =>
      rw [hget] at hnone
      cases hnone
    | under hq hx =>
      obtain ⟨-, -, e', he, hq⟩ := hq
      obtain rfl := Option.some.inj (hget.symm.trans he)
      exact ⟨_, hq, hx⟩
  · rintro ⟨q, hq, hx⟩
    exact .under ⟨hrule, hskip, e, hget, hq⟩ hx

/-- The walk misses what the rules on its stack miss, each hash once. -/
theorem mem_missed {fuel : Nat} {stack : List (ShapeRule × Bytes)}
    {found out : List (Bytes × Expr)} {missing missed : List Bytes}
    (hrun : walkShapeFrom node fuel stack found missing = .ok (out, missed)) (x : Bytes) :
    x ∈ missed ↔ x ∈ missing ∨ ∃ q ∈ stack, ShapeMisses node q.1 q.2 x := by
  induction fuel generalizing stack found missing with
  | zero =>
    cases stack with
    | nil =>
      cases hrun
      simp
    | cons q stack => cases hrun
  | succ fuel ih =>
    rcases stack with - | ⟨⟨rule, h⟩, stack⟩
    · cases hrun
      simp
    rw [walkShapeFrom] at hrun
    split at hrun
    · rename_i hpass
      have hnone : ¬ShapeMisses node rule h x := by
        intro hmiss
        obtain ⟨hrule, hskip⟩ := hmiss.start
        rcases hpass with hpass | hpass
        · exact hrule hpass
        · rw [hskip] at hpass
          cases hpass
      rw [ih hrun]
      simp [hnone]
    rename_i hpass
    obtain ⟨hrule, hskip⟩ := not_or.mp hpass
    have hskip := Bool.eq_false_of_not_eq_true hskip
    split at hrun
    · rename_i hget
      have hadd : x ∈ (if h ∈ missing then missing else missing ++ [h]) ↔
          x ∈ missing ∨ x = h := by
        split
        · rename_i hin
          constructor
          · exact .inl
          · rintro (hx | rfl)
            · exact hx
            · exact hin
        · rw [List.mem_append, List.mem_singleton]
      rw [ih hrun, hadd]
      simp only [List.mem_cons, or_and_right, exists_or, exists_eq_left]
      rw [shapeMisses_of_none hrule hskip hget, or_assoc]
    · rename_i e hget
      rw [ih hrun]
      simp only [List.mem_append, List.mem_cons, or_and_right, exists_or, exists_eq_left]
      rw [shapeMisses_of_some hrule hskip hget]

theorem nodup_missed {fuel : Nat} {stack : List (ShapeRule × Bytes)}
    {found out : List (Bytes × Expr)} {missing missed : List Bytes}
    (hrun : walkShapeFrom node fuel stack found missing = .ok (out, missed))
    (hmissing : missing.Nodup) : missed.Nodup := by
  induction fuel generalizing stack found missing with
  | zero =>
    cases stack with
    | nil =>
      cases hrun
      exact hmissing
    | cons q stack => cases hrun
  | succ fuel ih =>
    rcases stack with - | ⟨⟨rule, h⟩, stack⟩
    · cases hrun
      exact hmissing
    rw [walkShapeFrom] at hrun
    split at hrun
    · exact ih hrun hmissing
    split at hrun
    · split at hrun
      · exact ih hrun hmissing
      · rename_i hnew
        exact ih hrun (List.concat_eq_append ▸ hmissing.concat hnew)
    · exact ih hrun hmissing

/-- The walk deals with a pair below which no chain goes on for ever, and then with the rest of
its stack. -/
theorem exists_visit_pair {q : ShapeRule × Bytes} (hq : Acc (ShapeBelow node) q)
    (found : List (Bytes × Expr)) (missing : List Bytes) :
    ∃ n found' missing', ∀ fuel stack,
      walkShapeFrom node (n + fuel) (q :: stack) found missing =
        walkShapeFrom node fuel stack found' missing' := by
  induction hq generalizing found missing with
  | intro q _ ih =>
    have hlist : ∀ (l : List (ShapeRule × Bytes)), (∀ q' ∈ l, ShapeBelow node q' q) →
        ∀ found missing, ∃ n found' missing', ∀ fuel stack,
          walkShapeFrom node (n + fuel) (l ++ stack) found missing =
            walkShapeFrom node fuel stack found' missing' := by
      intro l hl
      induction l with
      | nil =>
        intro found missing
        refine ⟨0, found, missing, fun fuel stack => ?_⟩
        rw [Nat.zero_add, List.nil_append]
      | cons q' l ihl =>
        intro found missing
        obtain ⟨n, found', missing', hrun⟩ := ih q' (hl q' List.mem_cons_self) found missing
        obtain ⟨n', found'', missing'', hrun'⟩ :=
          ihl (fun q'' hq'' => hl q'' (List.mem_cons_of_mem _ hq'')) found' missing'
        refine ⟨n + n', found'', missing'', fun fuel stack => ?_⟩
        rw [Nat.add_assoc, List.cons_append, hrun, hrun']
    rcases q with ⟨rule, h⟩
    by_cases hpass : rule = .hold ∨ skipsHash node h = true
    · refine ⟨1, found, missing, fun fuel stack => ?_⟩
      rw [Nat.add_comm, walkShapeFrom, if_pos hpass]
    obtain ⟨hrule, hskip⟩ := not_or.mp hpass
    rcases hget : node.stored h with - | e
    · refine ⟨1, found, if h ∈ missing then missing else missing ++ [h],
        fun fuel stack => ?_⟩
      rw [Nat.add_comm, walkShapeFrom, if_neg hpass, hget]
    · obtain ⟨n, found', missing', hrun⟩ := hlist (belowCell node rule e)
        (fun q' hq' => ⟨hrule, Bool.eq_false_of_not_eq_true hskip, e, hget, hq'⟩)
        (if h ∈ found.map Prod.fst then found else found ++ [(h, e)]) missing
      refine ⟨n + 1, found', missing', fun fuel stack => ?_⟩
      rw [Nat.add_right_comm, walkShapeFrom, if_neg hpass, hget]
      exact hrun fuel stack

/-- A walk that ends has followed no chain for ever. -/
theorem acc_of_walkShapeFrom {fuel : Nat} {stack : List (ShapeRule × Bytes)}
    {found : List (Bytes × Expr)} {missing : List Bytes}
    {r : List (Bytes × Expr) × List Bytes}
    (hrun : walkShapeFrom node fuel stack found missing = .ok r) :
    ∀ q ∈ stack, Acc (ShapeBelow node) q := by
  induction fuel generalizing stack found missing with
  | zero =>
    cases stack with
    | nil => exact fun q hq => absurd hq List.not_mem_nil
    | cons q stack => cases hrun
  | succ fuel ih =>
    rcases stack with - | ⟨⟨rule, h⟩, stack⟩
    · exact fun q hq => absurd hq List.not_mem_nil
    rw [walkShapeFrom] at hrun
    intro q hq
    split at hrun
    · rename_i hpass
      rcases List.mem_cons.mp hq with rfl | hq
      · refine Acc.intro _ fun q' hq' => ?_
        obtain ⟨hrule, hskip, -⟩ := hq'
        rcases hpass with hpass | hpass
        · exact absurd hpass hrule
        · exact absurd (hskip.symm.trans hpass) (by decide)
      · exact ih hrun q hq
    split at hrun
    · rename_i hget
      rcases List.mem_cons.mp hq with rfl | hq
      · refine Acc.intro _ fun q' hq' => ?_
        obtain ⟨-, -, e, he, -⟩ := hq'
        exact absurd (hget.symm.trans he) (by simp)
      · exact ih hrun q hq
    · rename_i e hget
      have hall := ih hrun
      rcases List.mem_cons.mp hq with rfl | hq
      · refine Acc.intro _ fun q' hq' => ?_
        obtain ⟨-, -, e', he, hbelow⟩ := hq'
        obtain rfl := Option.some.inj (hget.symm.trans he)
        exact hall q' (List.mem_append_left _ hbelow)
      · exact hall q (List.mem_append_right _ hq)

theorem not_below_self {q : ShapeRule × Bytes} (hq : Acc (ShapeBelow node) q) :
    ¬ShapeBelow node q q := by
  induction hq with
  | intro q _ ih => exact fun hself => ih q hself hself

theorem walkShapeFrom_error {fuel : Nat} {stack : List (ShapeRule × Bytes)}
    {found : List (Bytes × Expr)} {missing : List Bytes} {err : PyError}
    (hrun : walkShapeFrom node fuel stack found missing = .error err) : err = .outOfFuel := by
  induction fuel generalizing stack found missing with
  | zero =>
    cases stack with
    | nil => cases hrun
    | cons q stack =>
      cases hrun
      rfl
  | succ fuel ih =>
    rcases stack with - | ⟨⟨rule, h⟩, stack⟩
    · cases hrun
    rw [walkShapeFrom] at hrun
    split at hrun
    · exact ih hrun
    split at hrun
    · exact ih hrun
    · exact ih hrun

/-- The walk of a rule without `REPEAT` ends in any storage. -/
theorem acc_of_no_repeat {rule : ShapeRule} (hrule : 3 ∉ rule.shape) (h : Bytes) :
    Acc (ShapeBelow node) (rule, h) := by
  induction rule generalizing h with
  | hold | send =>
    refine Acc.intro _ fun q hq => ?_
    obtain ⟨-, -, e, -, hq⟩ := hq
    simp [belowCell, rulesBelow] at hq
  | pair head tail ihhead ihtail =>
    simp only [ShapeRule.shape, pairShape, List.mem_cons, List.mem_append, not_or] at hrule
    refine Acc.intro _ fun q hq => ?_
    obtain ⟨-, -, e, -, hq⟩ := hq
    dsimp only [belowCell] at hq
    split at hq
    · simp only [rulesBelow, List.mem_cons, List.not_mem_nil, or_false] at hq
      rcases hq with rfl | rfl
      · exact ihhead (by simpa using hrule.1) _
      · exact ihtail hrule.2 _
    · cases hq
  | rep head _ => simp [ShapeRule.shape, repeatShape] at hrule

variable (node) in
/-- The cell stored under `h` names `x`. -/
def NamedBy (x h : Bytes) : Prop :=
  ∃ e, node.stored h = some e ∧
    (x = e.getHeadHash node.blake3 ∨ x = e.getTailHash node.blake3)

theorem namedBy_of_below {q q' : ShapeRule × Bytes} (hq : ShapeBelow node q' q) :
    NamedBy node q'.2 q.2 := by
  obtain ⟨-, -, e, hget, hq⟩ := hq
  refine ⟨e, hget, ?_⟩
  dsimp only [belowCell] at hq
  split at hq
  · rcases q with ⟨rule, h⟩
    cases rule with
    | hold | send => cases hq
    | pair head tail | rep head =>
      simp only [rulesBelow, List.mem_cons, List.not_mem_nil, or_false] at hq
      rcases hq with rfl | rfl
      · exact .inl rfl
      · exact .inr rfl
  · cases hq

/-- Every walk ends where no chain of the stored cells goes on for ever. -/
theorem acc_of_namedBy (hacc : Acc (NamedBy node) h) (rule : ShapeRule) :
    Acc (ShapeBelow node) (rule, h) := by
  induction hacc generalizing rule with
  | intro h _ ih =>
    refine Acc.intro _ fun q hq => ?_
    exact ih q.2 (namedBy_of_below hq) q.1

/-- A shape is read as the rule tree that it was built as, and the walk of a rule ends unless its
rules and hashes go on for ever. It then has each expr that the rule reaches once, and the hashes
reached that the storage lacks. -/
theorem shapes_are_exact (node : Node) :
    (∀ data rule, BuiltShape data rule → rule.depth ≤ maxShapeDepth →
      parseShape data = .ok rule) ∧
    (∀ data, (¬∃ rule, BuiltShape data rule ∧ rule.depth ≤ maxShapeDepth) →
      parseShape data = .error .valueError) ∧
    ∀ rule root,
      (¬Acc (ShapeBelow node) (rule, root) →
        ∀ fuel, walkShapeFrom node fuel [(rule, root)] [] [] = .error .outOfFuel) ∧
      (Acc (ShapeBelow node) (rule, root) → ∃ found missing n,
        (∀ fuel, n ≤ fuel →
          walkShapeFrom node fuel [(rule, root)] [] [] = .ok (found, missing)) ∧
        (found.map Prod.fst).Nodup ∧
        (∀ h e, (h, e) ∈ found ↔ node.stored h = some e ∧ ShapeReaches node rule root h) ∧
        missing.Nodup ∧ ∀ h, h ∈ missing ↔ ShapeMisses node rule root h) := by
  refine ⟨fun data rule hbuilt hdepth => parseShape_eq_ok.mpr ⟨hbuilt, hdepth⟩, ?_, ?_⟩
  · intro data hnone
    rcases hparse : parseShape data with err | rule
    · rw [parseShape_error hparse]
    · exact absurd ⟨rule, parseShape_eq_ok.mp hparse⟩ hnone
  intro rule root
  constructor
  · intro hacc fuel
    rcases hrun : walkShapeFrom node fuel [(rule, root)] [] [] with err | r
    · rw [walkShapeFrom_error hrun]
    · exact absurd (acc_of_walkShapeFrom hrun _ (List.mem_singleton_self _)) hacc
  · intro hacc
    obtain ⟨n, found, missing, hvisit⟩ := exists_visit_pair hacc [] []
    have hrun : ∀ fuel, n ≤ fuel →
        walkShapeFrom node fuel [(rule, root)] [] [] = .ok (found, missing) := by
      intro fuel hfuel
      obtain ⟨more, rfl⟩ := Nat.exists_eq_add_of_le hfuel
      rw [hvisit]
      cases more <;> rfl
    have hrun₀ := hrun n le_rfl
    refine ⟨found, missing, n, hrun, (nodup_walkShapeFrom hrun₀ List.nodup_nil).1, ?_,
      nodup_missed hrun₀ List.nodup_nil, ?_⟩
    · intro h e
      have hmem := mem_walkShapeFrom hrun₀ (fun p hp => absurd hp List.not_mem_nil) (h, e)
      simpa using hmem
    · intro h
      simpa using mem_missed hrun₀ h

end Walk

section Samples

def loopHash : Bytes := List.replicate 32 1

/-- A storage with one cell, whose tail names the cell itself. -/
def loopNode : Node :=
  { bareNode with
    stored := fun h =>
      if h = loopHash then some (.link .none (.byHash zero32) (.byHash loopHash)) else none }

theorem loop_below : ShapeBelow loopNode (.rep .send, loopHash) (.rep .send, loopHash) := by
  have hget : loopNode.stored loopHash =
      some (.link .none (.byHash zero32) (.byHash loopHash)) := by simp [loopNode]
  refine ⟨by decide, by decide, _, hget, ?_⟩
  exact List.mem_cons_of_mem _ List.mem_cons_self

/-- `REPEAT` follows a tail that comes back to its cell for ever. -/
theorem repeat_follows_loop :
    ¬∃ fuel r, walkShapeFrom loopNode fuel [(.rep .send, loopHash)] [] [] = .ok r := by
  rintro ⟨fuel, r, hrun⟩
  have hacc := acc_of_walkShapeFrom hrun _ (List.mem_singleton_self _)
  exact absurd loop_below (not_below_self hacc)

/-- The walk of an int over the looping storage. -/
theorem int_rule_ends : ∃ found missing n,
    (∀ fuel, n ≤ fuel → walkShapeFrom loopNode fuel [(.pair .send .hold, loopHash)] [] [] =
      .ok (found, missing)) ∧
    (found.map Prod.fst).Nodup ∧
    (∀ h e, (h, e) ∈ found ↔ loopNode.stored h = some e ∧
      ShapeReaches loopNode (.pair .send .hold) loopHash h) ∧
    missing.Nodup ∧
    ∀ h, h ∈ missing ↔ ShapeMisses loopNode (.pair .send .hold) loopHash h :=
  ((shapes_are_exact loopNode).2.2 (.pair .send .hold) loopHash).2 (acc_of_no_repeat (by decide) _)

end Samples

end Astreum

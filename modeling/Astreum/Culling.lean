import Astreum.Gathering
import Astreum.HotStorage
import Astreum.Printer
import Astreum.StorageRequests

namespace Astreum

open Relation

/-- `RESOLUTION_LIST` -/
def resolutionList : Int := 2

/-- `RESOLUTION_FULL` -/
def resolutionFull : Int := 3

section Model

variable (blake3 : Bytes → Bytes)

/-- `by_hash`: the first of the exprs under each hash. Exprs off the wire have their hashes. -/
def byHashFrom (byHash : Dict Bytes Expr) : List Expr → Dict Bytes Expr
  | [] => byHash
  | e :: exprs =>
    byHashFrom
      (if e.hash blake3 ∈ byHash.keys then byHash else byHash.insert (e.hash blake3) e) exprs

def byHash (exprs : List Expr) : Dict Bytes Expr := byHashFrom blake3 Dict.empty exprs

/-- The hash of a side that is stored or loaded. -/
def sideHash? (side : Child) : Option Bytes :=
  match side with
  | .none => none
  | .loaded e => some (e.hash blake3)
  | .byHash h => some h

/-- `_child_hashes` -/
def childHashes (e : Expr) : List Bytes :=
  if e.base = .link then
    ([e.headChild, e.tailChild].filterMap (sideHash? blake3)).filter fun h => h ≠ zero32
  else []

/-- The loop over the tails, with what is kept under each hash. -/
def tailChainFrom (get : Bytes → Option Expr) :
    Nat → Expr → List (Bytes × Expr) → Py (List (Bytes × Expr))
  | 0, _, _ => .error .outOfFuel
  | fuel + 1, current, kept =>
    if current.base = .link then
      match sideHash? blake3 current.tailChild with
      | none => .ok kept
      | some tailHash =>
        if tailHash = zero32 ∨ tailHash ∈ kept.map Prod.fst then .ok kept
        else match get tailHash with
          | none => .ok kept
          | some nxt => tailChainFrom get fuel nxt (kept ++ [(tailHash, nxt)])
    else .ok kept

/-- The loop over the child hashes of one expr: what is kept, the stack and what remains. -/
def addChildren (get : Bytes → Option Expr) :
    List Bytes → List (Bytes × Expr) → List Expr → Int → List (Bytes × Expr) × List Expr × Int
  | [], kept, stack, remaining => (kept, stack, remaining)
  | h :: hashes, kept, stack, remaining =>
    if h ∈ kept.map Prod.fst then addChildren get hashes kept stack remaining
    else match get h with
      | none => addChildren get hashes kept stack remaining
      | some child => addChildren get hashes (kept ++ [(h, child)]) (child :: stack) (remaining - 1)

/-- The loop over the stack, which ends early when nothing remains. -/
def childrenFrom (get : Bytes → Option Expr) :
    Nat → List Expr → List (Bytes × Expr) → Int → Py (List (Bytes × Expr))
  | _, [], kept, _ => .ok kept
  | 0, _ :: _, _, _ => .error .outOfFuel
  | fuel + 1, current :: stack, kept, remaining =>
    if remaining ≤ 0 then .ok kept
    else
      let (kept, stack, remaining) :=
        addChildren get (childHashes blake3 current) kept stack remaining
      childrenFrom get fuel stack kept remaining

variable (node : Node)

/-- The node of which the local storage is what was delivered. -/
def Node.delivering (exprs : List Expr) : Node :=
  { node with stored := (byHash node.blake3 exprs).get? }

def cullToResolution (root : Expr) (exprs : List Expr) (resolution : Option Int) (shape : Bytes) :
    Py (List Expr) :=
  let delivered := byHash node.blake3 exprs
  let rootHash := node.hash root
  match resolution with
  | none => .ok [root]
  | some resolution =>
    if resolution = resolutionDynamic then
      match parseShape shape with
      | .error .valueError => .ok [root]
      | .error err => .error err
      | .ok rule => do
        let (found, _) ← walkShape (node.delivering exprs) rule rootHash
        return root :: found.filter fun e => node.hash e ≠ rootHash
    else if resolution = resolutionRadixKey ∨ resolution = resolutionRadixAll then
      .ok (root :: (delivered.pairs.filter fun p => p.1 ≠ rootHash).map Prod.snd)
    else if resolution < resolutionList then .ok [root]
    else if resolution < resolutionFull then
      List.map Prod.snd <$>
        tailChainFrom node.blake3 delivered.get? node.fuel root [(rootHash, root)]
    else
      List.map Prod.snd <$>
        childrenFrom node.blake3 delivered.get? node.fuel [root] [(rootHash, root)]
          (delivered.pairs.length - 1)

mutual

/-- A cell as an object that knows of each side what the cell does. -/
def Expr.hot : Expr → HotExpr
  | .nil => .nil
  | .symbol s => .symbol s
  | .bytes b => .bytes b
  | .bytesOf e => .bytesOf e.hot
  | .link v head tail => .link v head.hot tail.hot

def Child.hot : Child → HotSide
  | .none => .absent none
  | .loaded e => .loaded e.hot none
  | .byHash h => .absent (some h)

end

variable {τ : Type} [LinearOrder τ] (time : Nat → τ) (limit : Int)

/-- The puts of a reply, and how many of them failed. -/
def putReply : List Expr → Nat → HotStorage τ → HotStorage τ × Py Nat
  | [], failures, s => (s, .ok failures)
  | e :: exprs, failures, s =>
    match HotStorage.putExpr node.blake3 time limit e.hot s with
    | (s, .error err) => (s, .error err)
    | (s, .ok stored) => putReply exprs (if stored then failures else failures + 1) s

/-- What `handle_storage_response` does with the exprs of all pages of a reply: the message of its
failure, if it fails. -/
def storageFound (rootId : Bytes) (exprs : List Expr) (resolution : Option Int) (shape : Bytes)
    (s : HotStorage τ) : HotStorage τ × Py (Option String) :=
  match exprs.find? fun e => node.hash e = rootId with
  | none => (s, .ok (some "STORAGE_FOUND root ID mismatch"))
  | some root =>
    match cullToResolution node root exprs resolution shape with
    | .error err => (s, .error err)
    | .ok kept =>
      match putReply node time limit (kept.drop 1 ++ [root]) 0 s with
      | (s, .error err) => (s, .error err)
      | (s, .ok failures) =>
        (s, .ok (if failures = 0 then none
          else some ("failed hot storage set for " ++ String.ofList (hexChars rootId) ++
            " count=" ++ toString failures)))

end Model

section Meaning

variable (blake3 : Bytes → Bytes)

/-- A link names what is stored or loaded at one of the sides, unless it is nil. -/
def Names (sides : Expr → List Child) (e : Expr) (x : Bytes) : Prop :=
  e.base = .link ∧ x ≠ zero32 ∧ ∃ side ∈ sides e, sideHash? blake3 side = some x

/-- The expr that was delivered under a hash. -/
def delivered (exprs : List Expr) (h : Bytes) : Option Expr :=
  exprs.find? fun e => e.hash blake3 = h

/-- What is reached over the sides of links, through nothing but what was delivered. -/
def ReachesOver (sides : Expr → List Child) (exprs : List Expr) : Bytes → Bytes → Prop :=
  ReflTransGen (Gathering.Step (delivered blake3 exprs) (Names blake3 sides))

/-- What a request for a root covers of the exprs delivered. -/
def RequestCovers (node : Node) (root : Bytes) (exprs : List Expr) (resolution : Option Int)
    (shape : Bytes) : Bytes → Prop :=
  match resolution with
  | none => fun x => x = root
  | some resolution =>
    if resolution = resolutionDynamic then fun x => x = root ∨
      ∃ rule, parseShape shape = .ok rule ∧ ShapeReaches (node.delivering exprs) rule root x
    else if resolution = resolutionRadixKey ∨ resolution = resolutionRadixAll then fun _ => True
    else if resolution < resolutionList then fun x => x = root
    else if resolution < resolutionFull then
      ReachesOver node.blake3 (fun e => [e.tailChild]) exprs root
    else ReachesOver node.blake3 (fun e => [e.headChild, e.tailChild]) exprs root

/-- The root comes first and no hash twice, and what is kept is what was delivered and is
covered. -/
structure Culled (root : Expr) (exprs : List Expr) (covers : Bytes → Prop) (kept : List Expr) :
    Prop where
  first : kept.head? = some root
  once : (kept.map (Expr.hash blake3)).Nodup
  covered : ∀ e, e ∈ kept ↔ delivered blake3 exprs (e.hash blake3) = some e ∧ covers (e.hash blake3)

end Meaning

section Loops

open Gathering

variable {blake3 : Bytes → Bytes} {get : Bytes → Option Expr} {start : Bytes} {current : Expr}
  {stack : List Expr} {kept : List (Bytes × Expr)}

theorem get?_byHash (exprs : List Expr) : (byHash blake3 exprs).get? = delivered blake3 exprs := by
  have hfrom : ∀ (exprs : List Expr) (d : Dict Bytes Expr) (h : Bytes),
      (byHashFrom blake3 d exprs).get? h = (d.get? h).or (delivered blake3 exprs h) := by
    intro exprs
    induction exprs with
    | nil => exact fun d h => (Option.or_none).symm
    | cons e exprs ih =>
      intro d h
      have hfind : delivered blake3 (e :: exprs) h = _ := List.find?_cons
      rw [byHashFrom, ih, hfind]
      by_cases hh : e.hash blake3 = h
      · subst hh
        rw [decide_eq_true rfl]
        split
        · rename_i hin
          obtain ⟨x, hx⟩ := Option.ne_none_iff_exists'.mp
            fun hnone => Dict.get?_eq_none.mp hnone hin
          rw [hx]
          rfl
        · rename_i hnew
          rw [Dict.get?_insert_self, Dict.get?_eq_none.mpr hnew]
          rfl
      · rw [decide_eq_false hh]
        split
        · rfl
        · rw [Dict.get?_insert_of_ne _ _ hh]
          rfl
  funext h
  rw [byHash, hfrom, Dict.get?_empty]
  rfl

theorem hash_of_delivered {exprs : List Expr} {h : Bytes} {e : Expr}
    (he : delivered blake3 exprs h = some e) : e.hash blake3 = h := by
  simpa using List.find?_some he

theorem names_tail (e : Expr) (x : Bytes) : Names blake3 (fun e => [e.tailChild]) e x ↔
    e.base = .link ∧ x ≠ zero32 ∧ sideHash? blake3 e.tailChild = some x := by
  simp [Names]

theorem names_children (e : Expr) (x : Bytes) :
    Names blake3 (fun e => [e.headChild, e.tailChild]) e x ↔ x ∈ childHashes blake3 e := by
  rw [Names, childHashes]
  split
  · rename_i hlink
    simp [hlink, and_comm]
  · rename_i hlink
    simp [hlink]

/-- The loop over the tails keeps the chain, as far as it was delivered. -/
theorem exists_tailChain {bound : List Bytes} (hbound : ∀ k a, get k = some a → k ∈ bound)
    (hwalk : Walk get (Names blake3 fun e => [e.tailChild]) start [current] [] kept) :
    ∃ n kept', (∀ fuel, n ≤ fuel → tailChainFrom blake3 get fuel current kept = .ok kept') ∧
      Done get (Names blake3 fun e => [e.tailChild]) start kept' ∧ kept <+: kept' := by
  induction hm : bound.length - kept.length using Nat.strong_induction_on
    generalizing current kept with
  | _ m ih =>
    have hstop : (∀ fuel, tailChainFrom blake3 get (fuel + 1) current kept = .ok kept) →
        Done get (Names blake3 fun e => [e.tailChild]) start kept →
        ∃ n kept', (∀ fuel, n ≤ fuel → tailChainFrom blake3 get fuel current kept = .ok kept') ∧
          Done get (Names blake3 fun e => [e.tailChild]) start kept' ∧ kept <+: kept' := by
      intro hrun hdone
      refine ⟨1, kept, fun fuel hfuel => ?_, hdone, List.prefix_rfl⟩
      obtain ⟨fuel, rfl⟩ := Nat.exists_eq_add_of_le' hfuel
      exact hrun fuel
    by_cases hlink : current.base = .link
    swap
    · refine hstop (fun fuel => by rw [tailChainFrom, if_neg hlink]) ?_
      exact (hwalk.pop fun x => by simp [names_tail, hlink]).done
    rcases hside : sideHash? blake3 current.tailChild with - | h
    · refine hstop (fun fuel => by rw [tailChainFrom, if_pos hlink, hside]) ?_
      exact (hwalk.pop fun x => by simp [names_tail, hside]).done
    have hnext : ∀ fuel, tailChainFrom blake3 get (fuel + 1) current kept =
        if h = zero32 ∨ h ∈ kept.map Prod.fst then .ok kept
        else match get h with
          | none => .ok kept
          | some nxt => tailChainFrom blake3 get fuel nxt (kept ++ [(h, nxt)]) := by
      intro fuel
      rw [tailChainFrom, if_pos hlink, hside]
    by_cases hzero : h = zero32
    · refine hstop (fun fuel => by rw [hnext, if_pos (.inl hzero)]) ?_
      refine (hwalk.pop fun x => ?_).done
      simp only [names_tail, hside, Option.some.injEq, List.not_mem_nil, iff_false]
      rintro ⟨-, hx, rfl⟩
      exact hx hzero
    have hpop : Walk get (Names blake3 fun e => [e.tailChild]) start [] [h] kept := by
      refine hwalk.pop fun x => ?_
      simp only [names_tail, hside, Option.some.injEq, List.mem_singleton]
      constructor
      · rintro ⟨-, -, rfl⟩
        rfl
      · rintro rfl
        exact ⟨hlink, hzero, rfl⟩
    by_cases hseen : h ∈ kept.map Prod.fst
    · exact hstop (fun fuel => by rw [hnext, if_pos (.inr hseen)]) (hpop.skip (.inl hseen)).done
    have hgo : ¬(h = zero32 ∨ h ∈ kept.map Prod.fst) := not_or.mpr ⟨hzero, hseen⟩
    rcases hget : get h with - | nxt
    · exact hstop (fun fuel => by rw [hnext, if_neg hgo, hget]) (hpop.skip (.inr hget)).done
    have hadd := hpop.add hseen hget
    have hlength := hadd.length_le hbound
    rw [List.length_append, List.length_singleton] at hlength
    obtain ⟨n, kept', hrun, hdone, hprefix⟩ := ih (bound.length - (kept.length + 1)) (by omega) hadd
      (by rw [List.length_append, List.length_singleton])
    refine ⟨n + 1, kept', fun fuel hfuel => ?_, hdone, (List.prefix_append _ _).trans hprefix⟩
    obtain ⟨more, rfl⟩ := Nat.exists_eq_add_of_le hfuel
    rw [Nat.add_right_comm, hnext, if_neg hgo, hget]
    exact hrun (n + more) (Nat.le_add_right n more)

/-- The child hashes of an expr are looked at one after the other, and the counter goes down with
what is kept. -/
theorem addChildren_walk {names : Expr → Bytes → Prop} {hashes : List Bytes} (remaining : Int)
    (hwalk : Walk get names start stack hashes kept) :
    Walk get names start (addChildren get hashes kept stack remaining).2.1 []
        (addChildren get hashes kept stack remaining).1 ∧
      kept <+: (addChildren get hashes kept stack remaining).1 ∧
      (addChildren get hashes kept stack remaining).2.2 +
        (addChildren get hashes kept stack remaining).1.length = remaining + kept.length ∧
      (addChildren get hashes kept stack remaining).2.1.length + kept.length =
        stack.length + (addChildren get hashes kept stack remaining).1.length := by
  induction hashes generalizing kept stack remaining with
  | nil => exact ⟨hwalk, List.prefix_rfl, rfl, rfl⟩
  | cons h hashes ih =>
    rw [addChildren]
    by_cases hseen : h ∈ kept.map Prod.fst
    · rw [if_pos hseen]
      exact ih remaining (hwalk.skip (.inl hseen))
    rw [if_neg hseen]
    rcases hget : get h with - | child
    · exact ih remaining (hwalk.skip (.inr hget))
    · dsimp only
      obtain ⟨hdone, hprefix, hremaining, hstack⟩ :=
        ih (remaining - 1) (hwalk.add hseen hget)
      refine ⟨hdone, (List.prefix_append _ _).trans hprefix, ?_, ?_⟩
      · rw [hremaining, List.length_append, List.length_singleton]
        push_cast
        ring
      · rw [List.length_append, List.length_singleton, List.length_cons] at hstack
        omega

/-- The loop over the stack keeps all that is reached, although it stops when nothing remains. -/
theorem exists_children {bound : List Bytes} (hbound : ∀ k a, get k = some a → k ∈ bound)
    {remaining : Int} (hremaining : remaining + kept.length = bound.length)
    (hwalk : Walk get (Names blake3 fun e => [e.headChild, e.tailChild]) start stack [] kept) :
    ∃ n kept', (∀ fuel, n ≤ fuel → childrenFrom blake3 get fuel stack kept remaining = .ok kept') ∧
      Done get (Names blake3 fun e => [e.headChild, e.tailChild]) start kept' ∧
      kept <+: kept' := by
  induction hm : 2 * (bound.length - kept.length) + stack.length using Nat.strong_induction_on
    generalizing stack kept remaining with
  | _ m ih =>
    cases stack with
    | nil => exact ⟨0, kept, fun _ _ => by rw [childrenFrom], hwalk.done, List.prefix_rfl⟩
    | cons current stack =>
      by_cases hzero : remaining ≤ 0
      · refine ⟨1, kept, fun fuel hfuel => ?_, hwalk.done_of_length hbound (by omega),
          List.prefix_rfl⟩
        obtain ⟨fuel, rfl⟩ := Nat.exists_eq_add_of_le' hfuel
        rw [childrenFrom, if_pos hzero]
      obtain ⟨hnext, hprefix, hcount, hstack⟩ :=
        addChildren_walk remaining (hwalk.pop (names_children current))
      have hle := hwalk.length_le hbound
      have hle' := hnext.length_le hbound
      have hmore := hprefix.length_le
      rw [List.length_cons] at hm
      obtain ⟨n, kept', hrun, hdone, hprefix'⟩ :=
        ih _ (by omega) (hcount.trans hremaining) hnext rfl
      refine ⟨n + 1, kept', fun fuel hfuel => ?_, hdone, hprefix.trans hprefix'⟩
      obtain ⟨more, rfl⟩ := Nat.exists_eq_add_of_le hfuel
      rw [Nat.add_right_comm, childrenFrom, if_neg hzero]
      exact hrun (n + more) (Nat.le_add_right n more)

end Loops

section Cull

open Gathering

variable {node : Node} {root : Expr} {exprs : List Expr} {kept : List (Bytes × Expr)}

theorem culled_of_pairs {blake3 : Bytes → Bytes} {covers : Bytes → Prop}
    (hfirst : [(root.hash blake3, root)] <+: kept) (honce : (kept.map Prod.fst).Nodup)
    (hheld : ∀ p ∈ kept, delivered blake3 exprs p.1 = some p.2)
    (hcovers : ∀ k e, delivered blake3 exprs k = some e → (k ∈ kept.map Prod.fst ↔ covers k)) :
    Culled blake3 root exprs covers (kept.map Prod.snd) where
  first := by
    obtain ⟨rest, rfl⟩ := hfirst
    rfl
  once := by
    have hsame : (kept.map Prod.snd).map (Expr.hash blake3) = kept.map Prod.fst := by
      rw [List.map_map]
      exact List.map_congr_left fun p hp => hash_of_delivered (hheld p hp)
    rwa [hsame]
  covered e := by
    constructor
    · intro he
      obtain ⟨p, hp, rfl⟩ := List.mem_map.mp he
      rw [hash_of_delivered (hheld p hp)]
      exact ⟨hheld p hp, (hcovers _ _ (hheld p hp)).mp (List.mem_map_of_mem hp)⟩
    · rintro ⟨hget, hcovered⟩
      obtain ⟨p, hp, hkey⟩ := List.mem_map.mp ((hcovers _ _ hget).mpr hcovered)
      have hsame := hheld p hp
      rw [hkey, hget] at hsame
      exact List.mem_map.mpr ⟨p, hp, (Option.some.inj hsame).symm⟩

theorem culled_of_done {blake3 : Bytes → Bytes} {sides : Expr → List Child}
    (hfirst : [(root.hash blake3, root)] <+: kept)
    (h : Done (delivered blake3 exprs) (Names blake3 sides) (root.hash blake3) kept) :
    Culled blake3 root exprs (ReachesOver blake3 sides exprs (root.hash blake3))
      (kept.map Prod.snd) :=
  culled_of_pairs hfirst h.once h.held fun k _ _ => h.complete k

theorem mem_keys_byHash {blake3 : Bytes → Bytes} (exprs : List Expr) (k : Bytes) (e : Expr)
    (h : delivered blake3 exprs k = some e) : k ∈ (byHash blake3 exprs).keys := by
  by_contra hnew
  have hnone := Dict.get?_eq_none.mpr hnew
  rw [get?_byHash, h] at hnone
  cases hnone

theorem walkShapeFrom_delivering (exprs : List Expr) (n fuel : Nat)
    (stack : List (ShapeRule × Bytes)) (found : List (Bytes × Expr)) (missing : List Bytes) :
    walkShapeFrom (Node.delivering { node with fuel := n } exprs) fuel stack found missing =
      walkShapeFrom (node.delivering exprs) fuel stack found missing := by
  induction fuel generalizing stack found missing with
  | zero => cases stack <;> rfl
  | succ fuel ih =>
    rcases stack with - | ⟨⟨rule, h⟩, stack⟩
    · rfl
    · rw [walkShapeFrom, walkShapeFrom]
      simp only [ih]
      rfl

section Root

variable (hroot : delivered node.blake3 exprs (node.hash root) = some root)

include hroot

theorem held_root : ∀ p ∈ [(node.hash root, root)],
    delivered node.blake3 exprs p.1 = some p.2 := by
  intro p hp
  rw [List.mem_singleton.mp hp]
  exact hroot

/-- Without a walk nothing but the root is kept. -/
theorem culled_root : Culled node.blake3 root exprs (fun x => x = node.hash root) [root] :=
  culled_of_pairs List.prefix_rfl (List.nodup_singleton _) (held_root hroot)
    fun _ _ _ => List.mem_singleton

/-- A list of pairs with different keys, after the root. -/
theorem culled_after_root {pairs : List (Bytes × Expr)} (covers : Bytes → Prop)
    (honce : (pairs.map Prod.fst).Nodup)
    (hheld : ∀ p ∈ pairs, delivered node.blake3 exprs p.1 = some p.2)
    (hstart : covers (node.hash root))
    (hcovers : ∀ k e, delivered node.blake3 exprs k = some e → k ≠ node.hash root →
      (k ∈ pairs.map Prod.fst ↔ covers k)) :
    Culled node.blake3 root exprs covers
      (root :: (pairs.filter fun p => p.1 ≠ node.hash root).map Prod.snd) := by
  have hkey : ∀ k, k ∈ (pairs.filter fun p => p.1 ≠ node.hash root).map Prod.fst ↔
      k ∈ pairs.map Prod.fst ∧ k ≠ node.hash root := by
    intro k
    constructor
    · intro hk
      obtain ⟨p, hp, rfl⟩ := List.mem_map.mp hk
      obtain ⟨hp, hne⟩ := List.mem_filter.mp hp
      exact ⟨List.mem_map_of_mem hp, by simpa using hne⟩
    · rintro ⟨hk, hne⟩
      obtain ⟨p, hp, rfl⟩ := List.mem_map.mp hk
      exact List.mem_map_of_mem (List.mem_filter.mpr ⟨hp, by simpa using hne⟩)
  refine culled_of_pairs (List.prefix_append [(node.hash root, root)] _) ?_ (fun p hp => ?_)
    fun k e hget => ?_
  · refine List.nodup_cons.mpr ⟨fun hin => ((hkey _).mp hin).2 rfl, ?_⟩
    exact honce.sublist (List.filter_sublist.map _)
  · rcases List.mem_append.mp hp with hp | hp
    · exact held_root hroot p hp
    · exact hheld p (List.mem_of_mem_filter hp)
  · rw [List.map_append, List.mem_append, hkey]
    by_cases hk : k = node.hash root
    · subst hk
      exact iff_of_true (.inl (List.mem_singleton_self _)) hstart
    · have hnot : k ∉ [(node.hash root, root)].map Prod.fst := fun hin =>
        hk (List.mem_singleton.mp hin)
      rw [or_iff_right hnot, and_iff_left hk]
      exact hcovers k e hget hk

/-- A shape is walked to its end, as no delivered expr is below itself. -/
theorem exists_dynamic (hcircle : ∀ h, ¬TransGen (NamedBy (node.delivering exprs)) h h)
    {shape : Bytes} {rule : ShapeRule} (hparse : parseShape shape = .ok rule) :
    ∃ n kept, (∀ fuel, n ≤ fuel → cullToResolution { node with fuel := fuel } root exprs
        (some resolutionDynamic) shape = .ok kept) ∧
      Culled node.blake3 root exprs
        (fun x => x = node.hash root ∨ ∃ rule, parseShape shape = .ok rule ∧
          ShapeReaches (node.delivering exprs) rule (node.hash root) x) kept := by
  have hstored : (node.delivering exprs).stored = delivered node.blake3 exprs :=
    get?_byHash exprs
  have hbound : ∀ x h, NamedBy (node.delivering exprs) x h →
      h ∈ (byHash node.blake3 exprs).keys := by
    rintro x h ⟨e, he, -⟩
    rw [hstored] at he
    exact mem_keys_byHash exprs h e he
  have hacc := acc_of_namedBy (Gathering.acc_of_no_circle _ hbound hcircle (node.hash root)) rule
  obtain ⟨found, missing, n, hrun, honce, hfound, -⟩ :=
    ((shapes_are_exact (node.delivering exprs)).2.2 rule (node.hash root)).2 hacc
  have hheld : ∀ p ∈ found, delivered node.blake3 exprs p.1 = some p.2 := by
    intro p hp
    rw [← hstored]
    exact ((hfound p.1 p.2).mp hp).1
  have hculled := culled_after_root hroot (fun x => x = node.hash root ∨
    ∃ rule, parseShape shape = .ok rule ∧
      ShapeReaches (node.delivering exprs) rule (node.hash root) x) honce hheld (.inl rfl)
    fun k e hget hk => by
      rw [or_iff_right hk]
      constructor
      · intro hin
        obtain ⟨p, hp, rfl⟩ := List.mem_map.mp hin
        exact ⟨rule, hparse, ((hfound p.1 p.2).mp hp).2⟩
      · rintro ⟨rule', hrule', hreach⟩
        obtain rfl := Except.ok.inj (hparse.symm.trans hrule')
        exact List.mem_map_of_mem ((hfound k e).mpr ⟨by rw [hstored]; exact hget, hreach⟩)
  have hfilter : (found.map Prod.snd).filter (fun e => node.hash e ≠ node.hash root) =
      (found.filter fun p => p.1 ≠ node.hash root).map Prod.snd := by
    rw [List.filter_map]
    refine congrArg _ (List.filter_congr fun p hp => ?_)
    have hsame : node.hash p.2 = p.1 := hash_of_delivered (hheld p hp)
    simp [hsame]
  refine ⟨n, _, fun fuel hfuel => ?_, hculled⟩
  have hwalk : walkShape (Node.delivering { node with fuel := fuel } exprs) rule (node.hash root) =
      .ok (found.map Prod.snd, missing) := by
    rw [walkShape, walkShapeFrom_delivering]
    change (walkShapeFrom (node.delivering exprs) fuel _ _ _ >>= _) = _
    rw [hrun fuel hfuel]
    rfl
  rw [← hfilter, cullToResolution]
  dsimp only
  rw [if_pos rfl, hparse]
  change (walkShape _ rule (node.hash root) >>= _) = _
  rw [hwalk]
  rfl

/-- For each resolution the request's exprs are kept, with fuel enough for the loops. -/
theorem exists_cull (resolution : Option Int) (hcircle : resolution = some resolutionDynamic →
    ∀ h, ¬TransGen (NamedBy (node.delivering exprs)) h h) (shape : Bytes) :
    ∃ n kept, (∀ fuel, n ≤ fuel → cullToResolution { node with fuel := fuel } root exprs
        resolution shape = .ok kept) ∧
      Culled node.blake3 root exprs
        (RequestCovers node (node.hash root) exprs resolution shape) kept := by
  rcases resolution with - | resolution
  · exact ⟨0, [root], fun _ _ => rfl, culled_root hroot⟩
  have hget : (byHash node.blake3 exprs).get? = delivered node.blake3 exprs := get?_byHash exprs
  by_cases hdynamic : resolution = resolutionDynamic
  · subst hdynamic
    have hcovers : RequestCovers node (node.hash root) exprs (some resolutionDynamic) shape =
        fun x => x = node.hash root ∨ ∃ rule, parseShape shape = .ok rule ∧
          ShapeReaches (node.delivering exprs) rule (node.hash root) x := by
      rw [RequestCovers, if_pos rfl]
    rw [hcovers]
    rcases hparse : parseShape shape with err | rule
    · obtain rfl := parseShape_error hparse
      refine ⟨0, [root], fun fuel _ => ?_, ?_⟩
      · rw [cullToResolution]
        dsimp only
        rw [if_pos rfl, hparse]
      · simpa using culled_root hroot
    · rw [← hparse]
      exact exists_dynamic hroot (hcircle rfl) hparse
  simp only [cullToResolution, RequestCovers]
  simp only [if_neg hdynamic]
  by_cases hradix : resolution = resolutionRadixKey ∨ resolution = resolutionRadixAll
  · simp only [if_pos hradix]
    have hall := culled_after_root hroot (fun _ => True) (byHash node.blake3 exprs).nodup
      (fun p hp => by rw [← hget]; exact Dict.get?_eq_some.mpr hp) trivial
      fun k e he _ => iff_of_true (mem_keys_byHash exprs k e he) trivial
    exact ⟨0, _, fun _ _ => rfl, hall⟩
  simp only [if_neg hradix]
  by_cases hsingle : resolution < resolutionList
  · simp only [if_pos hsingle]
    exact ⟨0, [root], fun _ _ => rfl, culled_root hroot⟩
  simp only [if_neg hsingle]
  by_cases hlist : resolution < resolutionFull
  · simp only [if_pos hlist]
    obtain ⟨n, kept, hrun, hdone, hprefix⟩ := exists_tailChain (mem_keys_byHash exprs)
      (Walk.init hroot)
    refine ⟨n, kept.map Prod.snd, fun fuel hfuel => ?_, culled_of_done hprefix hdone⟩
    rw [hget]
    change List.map Prod.snd <$> tailChainFrom node.blake3 _ fuel root [(node.hash root, root)] = _
    rw [hrun fuel hfuel]
    rfl
  · simp only [if_neg hlist]
    have hcount : ((byHash node.blake3 exprs).pairs.length - 1 : Int) +
        [(node.hash root, root)].length = (byHash node.blake3 exprs).keys.length := by
      simp [Dict.keys]
    obtain ⟨n, kept, hrun, hdone, hprefix⟩ :=
      exists_children (mem_keys_byHash exprs) hcount (Walk.init hroot)
    refine ⟨n, kept.map Prod.snd, fun fuel hfuel => ?_, culled_of_done hprefix hdone⟩
    rw [hget]
    change List.map Prod.snd <$> childrenFrom node.blake3 _ fuel [root]
      [(node.hash root, root)] _ = _
    rw [hrun fuel hfuel]
    rfl

end Root

end Cull

section Hot

variable {blake3 : Bytes → Bytes} {τ : Type} [LinearOrder τ] {time : Nat → τ} {limit : Int}
  {s : HotStorage τ} {k : Bytes} {x : HotExpr}

/-- Making room only takes entries out. -/
theorem get?_of_makeRoom {key : Bytes} {kept : Option Bytes} {existingSize size : Int}
    (h : (HotStorage.makeRoom limit key kept existingSize size s).exprs.get? k = some x) :
    s.exprs.get? k = some x := by
  revert h
  refine HotStorage.makeRoom_induction
    (P := fun s' => s'.exprs.get? k = some x → s.exprs.get? k = some x) (fun s' k' _ ih h => ?_) id
  refine ih ?_
  change (s'.exprs.erase k').get? k = some x at h
  rw [Dict.get?_erase] at h
  split at h
  · cases h
  · exact h

/-- A store puts nothing but its own cell. -/
theorem get?_of_store {e : HotExpr}
    (h : (HotStorage.store blake3 time limit e s).1.exprs.get? k = some x) :
    s.exprs.get? k = some x ∨ e.hash blake3 = .ok k ∧ x = e := by
  rw [HotStorage.store] at h
  split at h
  · exact .inl h
  rename_i key hkey
  split at h
  · exact .inl h
  split at h
  · exact .inl h
  dsimp only at h
  split at h
  · exact .inl (get?_of_makeRoom h)
  · dsimp only at h
    rw [Dict.get?_insert] at h
    split at h
    · rename_i hsame
      rw [← hsame]
      exact .inr ⟨hkey, (Option.some.inj h).symm⟩
    · exact .inl (get?_of_makeRoom h)

variable (blake3 time limit s) in
/-- A cell off the wire is put without its sides, and under its hash. -/
theorem putExpr_wire {e : Expr} (he : WireCell e) :
    HotStorage.putExpr blake3 time limit e.hot s = HotStorage.store blake3 time limit e.hot s ∧
      e.hot.hash blake3 = .ok (e.hash blake3) := by
  cases he with
  | symbol | bytes => exact ⟨rfl, rfl⟩
  | link => exact ⟨rfl, rfl⟩

theorem get?_of_putReply {exprs : List Expr} (hwire : ∀ e ∈ exprs, WireCell e) {failures : Nat}
    {node : Node} (h : (putReply node time limit exprs failures s).1.exprs.get? k = some x) :
    s.exprs.get? k = some x ∨ ∃ e ∈ exprs, node.hash e = k ∧ x = e.hot := by
  induction exprs generalizing s failures with
  | nil => exact .inl h
  | cons e exprs ih =>
    obtain ⟨hput, hhash⟩ := putExpr_wire node.blake3 time limit s (hwire e List.mem_cons_self)
    have hstep : ∀ s', (HotStorage.putExpr node.blake3 time limit e.hot s).1 = s' →
        s'.exprs.get? k = some x → s.exprs.get? k = some x ∨
          ∃ e' ∈ e :: exprs, node.hash e' = k ∧ x = e'.hot := by
      rintro _ rfl hget
      rw [hput] at hget
      rcases get?_of_store hget with hold | ⟨hkey, hx⟩
      · exact .inl hold
      · exact .inr ⟨e, List.mem_cons_self, Except.ok.inj (hhash.symm.trans hkey), hx⟩
    rw [putReply] at h
    split at h
    · rename_i hrun
      exact hstep _ (congrArg Prod.fst hrun) h
    · rename_i hrun
      rcases ih (fun e' he' => hwire e' (List.mem_cons_of_mem e he')) h with hget | hnew
      · exact hstep _ (congrArg Prod.fst hrun) hget
      · obtain ⟨e', he', hkey⟩ := hnew
        exact .inr ⟨e', List.mem_cons_of_mem e he', hkey⟩

end Hot

section Results

/-- What a reply brings off the pages that are decoded. -/
def OffPages (exprs : List Expr) : Prop :=
  ∀ e ∈ exprs, ∃ payload number total page,
    decodeFoundPage payload = .ok (number, total, page) ∧ e ∈ page

/-- A reply is culled, whatever was delivered, to the root and the exprs that the request covers,
each once and the root first. The reply puts nothing else into hot storage. The root is the one
that the handler picks, and the walk of a shape needs hashes that do not go round in a circle, as
those of a hash function do not. -/
theorem replies_are_culled {τ : Type} [LinearOrder τ] (node : Node) (root : Expr)
    (exprs : List Expr) (hroot : delivered node.blake3 exprs (node.hash root) = some root)
    (resolution : Option Int) (hcircle : resolution = some resolutionDynamic →
      ∀ h, ¬TransGen (NamedBy (node.delivering exprs)) h h)
    (shape : Bytes) (time : Nat → τ) (limit : Int) (s : HotStorage τ) :
    ∃ n kept, (∀ fuel, n ≤ fuel → cullToResolution { node with fuel := fuel } root exprs
        resolution shape = .ok kept) ∧
      Culled node.blake3 root exprs
        (RequestCovers node (node.hash root) exprs resolution shape) kept ∧
      (OffPages exprs → ∀ fuel, n ≤ fuel → ∀ k x,
        (storageFound { node with fuel := fuel } time limit (node.hash root) exprs resolution
          shape s).1.exprs.get? k = some x →
        s.exprs.get? k = some x ∨ ∃ e ∈ kept, node.hash e = k ∧ x = e.hot) := by
  obtain ⟨n, kept, hrun, hculled⟩ := exists_cull hroot resolution hcircle shape
  refine ⟨n, kept, hrun, hculled, fun hpages fuel hfuel k x hget => ?_⟩
  have hwire : ∀ e ∈ kept, WireCell e := by
    intro e he
    obtain ⟨payload, number, total, page, hpage, hmem⟩ :=
      hpages e (List.mem_of_find?_eq_some ((hculled.covered e).mp he).1)
    exact decodeFoundPage_wire hpage e hmem
  have hin : ∀ e ∈ kept.drop 1 ++ [root], e ∈ kept := by
    intro e he
    rcases List.mem_append.mp he with he | he
    · exact List.mem_of_mem_drop he
    · rw [List.mem_singleton.mp he]
      exact List.mem_of_mem_head? hculled.first
  have hput : (storageFound { node with fuel := fuel } time limit (node.hash root) exprs resolution
      shape s).1 =
        (putReply { node with fuel := fuel } time limit (kept.drop 1 ++ [root]) 0 s).1 := by
    have hfind : (exprs.find? fun e =>
        Node.hash { node with fuel := fuel } e = node.hash root) = some root := hroot
    rw [storageFound, hfind]
    dsimp only
    rw [hrun fuel hfuel]
    dsimp only
    split
    · rename_i heq
      rw [heq]
    · rename_i heq
      rw [heq]
  rw [hput] at hget
  rcases get?_of_putReply (fun e he => hwire e (hin e he)) hget with hold | ⟨e, he, hnew⟩
  · exact .inl hold
  · exact .inr ⟨e, hin e he, hnew⟩

/-- A list of one cell, whose tail was not delivered. -/
def sampleReply : List Expr := [.bytes [7], .link .none (.byHash [2, 7]) (.byHash [9])]

theorem sample_named {x h : Bytes} (hnamed : NamedBy (bareNode.delivering sampleReply) x h) :
    (h = [2, 7] ∧ x = zero32) ∨ (h = [0, 2, 7, 9] ∧ (x = [2, 7] ∨ x = [9])) := by
  obtain ⟨e, he, hx⟩ := hnamed
  have hstored : (bareNode.delivering sampleReply).stored h = delivered id sampleReply h :=
    congrFun (get?_byHash sampleReply) h
  rw [hstored] at he
  obtain rfl := hash_of_delivered he
  have hmem := List.mem_of_find?_eq_some he
  simp only [sampleReply, List.mem_cons, List.not_mem_nil, or_false] at hmem
  rcases hmem with rfl | rfl
  · exact .inl ⟨rfl, hx.elim id id⟩
  · exact .inr ⟨rfl, hx⟩

theorem sample_no_circle (h : Bytes) :
    ¬TransGen (NamedBy (bareNode.delivering sampleReply)) h h := by
  intro hcircle
  obtain ⟨d, hd, hlast⟩ := TransGen.tail'_iff.mp hcircle
  rcases sample_named hlast with ⟨rfl, rfl⟩ | ⟨rfl, -⟩
  · rcases hd.cases_tail with heq | ⟨c, -, hc⟩
    · exact absurd heq (by decide)
    · rcases sample_named hc with ⟨heq, -⟩ | ⟨heq, -⟩ <;> exact absurd heq (by decide)
  · obtain ⟨c, hfirst, -⟩ := TransGen.head'_iff.mp hcircle
    rcases sample_named hfirst with ⟨-, heq⟩ | ⟨-, heq | heq⟩ <;> exact absurd heq (by decide)

theorem sample_reply_is_culled : ∃ n kept,
    (∀ fuel, n ≤ fuel → cullToResolution { bareNode with fuel := fuel }
      (.link .none (.byHash [2, 7]) (.byHash [9])) sampleReply (some resolutionDynamic)
      (pairShape sendShape sendShape) = .ok kept) ∧
    Culled bareNode.blake3 (.link .none (.byHash [2, 7]) (.byHash [9])) sampleReply
      (RequestCovers bareNode (bareNode.hash (.link .none (.byHash [2, 7]) (.byHash [9])))
        sampleReply (some resolutionDynamic) (pairShape sendShape sendShape)) kept ∧
    (OffPages sampleReply → ∀ fuel, n ≤ fuel → ∀ k x,
      (storageFound { bareNode with fuel := fuel } (fun n : Nat => n) 100
        (bareNode.hash (.link .none (.byHash [2, 7]) (.byHash [9]))) sampleReply
        (some resolutionDynamic) (pairShape sendShape sendShape)
        HotStorage.empty).1.exprs.get? k = some x →
      (HotStorage.empty : HotStorage Nat).exprs.get? k = some x ∨
        ∃ e ∈ kept, bareNode.hash e = k ∧ x = e.hot) :=
  replies_are_culled bareNode _ sampleReply (by decide) _ (fun _ => sample_no_circle) _ _ _ _

end Results

end Astreum

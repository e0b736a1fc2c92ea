import Astreum.ColdStorage
import Astreum.Culling
import Astreum.Paths
import Astreum.RecordWalk

namespace Astreum

open Paths

/-- Where a cell stands below a link: at a side, or as the payload of a value. -/
inductive CellSide where
  | head
  | tail
  | payload
  deriving DecidableEq

section Trees

/-- The cells at the sides of a link. -/
def Expr.sides : Expr → List (CellSide × Expr)
  | .link _ h t => h.cell?.toList.map (fun e => (CellSide.head, e)) ++
      t.cell?.toList.map fun e => (CellSide.tail, e)
  | _ => []

/-- The cells at the sides of a link, and the payload that is stored with it. -/
def Expr.parts : Expr → List (CellSide × Expr)
  | .link v h t => (Expr.link v h t).sides ++ (payloadCells v t).map fun e => (CellSide.payload, e)
  | _ => []

mutual

/-- The cells that `resolve_inner_exprs` walks over, in its order. -/
def Expr.innerExprs : Expr → List Expr
  | .link v h t => .link v h t :: (h.innerExprs ++ t.innerExprs)
  | e => [e]

def Child.innerExprs : Child → List Expr
  | .loaded e => e.innerExprs
  | _ => []

end

theorem nodup_sides (e : Expr) : (e.sides.map Prod.fst).Nodup := by
  cases e with
  | link v h t => cases h <;> cases t <;> simp [Expr.sides, Child.cell?]
  | _ => exact List.nodup_nil

theorem nodup_parts (e : Expr) : (e.parts.map Prod.fst).Nodup := by
  cases e with
  | link v h t =>
    rw [Expr.parts, payloadCells]
    split <;> cases h <;> cases t <;> simp [Expr.sides, Child.cell?]
  | _ => exact List.nodup_nil

mutual

/-- The walk takes each path over the sides once. -/
theorem exists_order_inner (e : Expr) :
    ∃ order, Order Expr.sides e order ∧ order.map Prod.snd = e.innerExprs := by
  cases e with
  | link v h t =>
    obtain ⟨head, hhead, hheads⟩ := exists_order_inner_side h
    obtain ⟨tail, htail, htails⟩ := exists_order_inner_side t
    refine ⟨_, Order.node (fun c => if c.1 = .head then head else tail) (nodup_sides _) ?_, ?_⟩
    · intro c hc
      rcases List.mem_append.mp hc with hc | hc
      · obtain ⟨e, he, rfl⟩ := List.mem_map.mp hc
        exact hhead e (Option.mem_toList.mp he)
      · obtain ⟨e, he, rfl⟩ := List.mem_map.mp hc
        exact htail e (Option.mem_toList.mp he)
    · rw [Expr.innerExprs, ← hheads, ← htails]
      cases h <;> cases t <;>
        simp_all [Expr.sides, Child.cell?, Child.innerExprs, Function.comp_def]
  | nil | symbol s | bytes b | bytesOf e => exact ⟨_, Order.leaf rfl, rfl⟩

theorem exists_order_inner_side (ch : Child) :
    ∃ order, (∀ e, ch.cell? = some e → Order Expr.sides e order) ∧
      order.map Prod.snd = ch.innerExprs := by
  cases ch with
  | loaded e =>
    obtain ⟨order, horder, hmap⟩ := exists_order_inner e
    exact ⟨order, fun e' he' => Option.some.inj he' ▸ horder, hmap⟩
  | none | byHash x => exact ⟨[], fun _ he => (by cases he), rfl⟩

end

mutual

/-- The puts take each path over the sides and the payloads once. -/
theorem exists_order_puts (e : Expr) :
    ∃ order, Order Expr.parts e order ∧ (order.map Prod.snd).Perm e.puts := by
  cases e with
  | link v h t =>
    obtain ⟨head, hhead, hheads⟩ := exists_order_puts_side h
    obtain ⟨tail, htail, htails⟩ := exists_order_puts_side t
    refine ⟨_, Order.node (fun c => match c.1 with
      | .head => head
      | .tail => tail
      | .payload => [([], c.2)]) (nodup_parts _) ?_, ?_⟩
    · intro c hc
      rcases List.mem_append.mp hc with hc | hc
      · rcases List.mem_append.mp hc with hc | hc
        · obtain ⟨e, he, rfl⟩ := List.mem_map.mp hc
          exact hhead e (Option.mem_toList.mp he)
        · obtain ⟨e, he, rfl⟩ := List.mem_map.mp hc
          exact htail e (Option.mem_toList.mp he)
      · obtain ⟨e, he, rfl⟩ := List.mem_map.mp hc
        rw [payloadCells] at he
        split at he
        · rw [List.mem_singleton.mp he]
          exact Order.leaf rfl
        · cases he
    · have hperm : (Expr.link v h t :: (head.map Prod.snd ++
          (tail.map Prod.snd ++ payloadCells v t))).Perm (Expr.link v h t).puts := by
        refine ((hheads.append (htails.append_right _)).cons _).trans ?_
        rw [Expr.puts, ← List.append_assoc, ← List.append_assoc, ← List.append_assoc]
        exact (List.perm_append_singleton _ _).symm
      have hflat : ∀ cells : List Expr,
          (cells.flatMap fun e => [([CellSide.payload], e)]).map Prod.snd = cells :=
        fun cells => by
          induction cells with
          | nil => rfl
          | cons e cells ih =>
            rw [List.flatMap_cons, List.map_append, ih]
            rfl
      refine .trans (.of_eq ?_) hperm
      cases h <;> cases t <;>
        simp_all [Expr.parts, Expr.sides, Child.cell?, Child.puts, Function.comp_def,
          List.flatMap_map]
  | nil | symbol s | bytes b | bytesOf e => exact ⟨_, Order.leaf rfl, .refl _⟩

theorem exists_order_puts_side (ch : Child) :
    ∃ order, (∀ e, ch.cell? = some e → Order Expr.parts e order) ∧
      (order.map Prod.snd).Perm ch.puts := by
  cases ch with
  | loaded e =>
    obtain ⟨order, horder, hmap⟩ := exists_order_puts e
    exact ⟨order, fun e' he' => Option.some.inj he' ▸ horder, hmap⟩
  | none | byHash x => exact ⟨[], fun _ he => (by cases he), .refl _⟩

end

variable (key : Expr → Bytes)

/-- No two paths over the children of a cell lead to cells of one hash. -/
abbrev UnsharedCells (children : Expr → List (CellSide × Expr)) (e : Expr) : Prop :=
  Unshared children key (fun _ => true) e

theorem nodup_innerExprs_iff (e : Expr) :
    (e.innerExprs.map key).Nodup ↔ UnsharedCells key Expr.sides e := by
  obtain ⟨order, horder, hmap⟩ := exists_order_inner e
  rw [UnsharedCells, ← horder.nodup_keys_iff, List.filter_true, hmap]

theorem nodup_puts_iff (e : Expr) :
    (e.puts.map key).Nodup ↔ UnsharedCells key Expr.parts e := by
  obtain ⟨order, horder, hmap⟩ := exists_order_puts e
  rw [UnsharedCells, ← horder.nodup_keys_iff, List.filter_true, (hmap.map key).nodup_iff]

end Trees

theorem loaded_sides {v : Val} {h t : Child} (hloaded : (Expr.link v h t).Loaded) :
    h.Loaded ∧ t.Loaded := by
  rcases hloaded with ⟨-, hh, ht⟩ | ⟨rfl, tag, rfl, -⟩
  · exact ⟨hh, ht⟩
  · exact ⟨trivial, trivial⟩

section Resolving

mutual

/-- A loaded tree is resolved without a read. -/
theorem exists_resolved (e : Expr) (hloaded : e.Loaded) : ∃ n, ∀ (node : Node) m, n ≤ m →
    resolveInnerFrom node m e = .ok ⟨.loaded e, e.innerExprs, []⟩ := by
  cases e with
  | link v h t =>
    obtain ⟨hh, ht⟩ := loaded_sides hloaded
    obtain ⟨n, hn⟩ := exists_resolved_side h hh
    obtain ⟨n', hn'⟩ := exists_resolved_side t ht
    refine ⟨max n n' + 1, fun node m hm => ?_⟩
    obtain ⟨m, rfl⟩ := Nat.exists_eq_add_of_le' (Nat.le_of_add_left_le hm)
    have hhead := hn node m (by omega)
    have htail := hn' node m (by omega)
    cases h with
    | byHash x => exact hh.elim
    | none =>
      cases t with
      | byHash x => exact ht.elim
      | none => rfl
      | loaded e' =>
        simp only [resolveInnerFrom, htail e' rfl, py_ok_bind]
        rfl
    | loaded e =>
      cases t with
      | byHash x => exact ht.elim
      | none =>
        simp only [resolveInnerFrom, hhead e rfl, py_ok_bind]
        rfl
      | loaded e' =>
        simp only [resolveInnerFrom, hhead e rfl, htail e' rfl, py_ok_bind]
        rfl
  | bytesOf e => exact hloaded.elim
  | nil | symbol s | bytes b =>
    refine ⟨1, fun node m hm => ?_⟩
    obtain ⟨m, rfl⟩ := Nat.exists_eq_add_of_le' hm
    rfl

theorem exists_resolved_side (ch : Child) (hloaded : ch.Loaded) :
    ∃ n, ∀ (node : Node) m, n ≤ m → ∀ e, ch = .loaded e →
      resolveInnerFrom node m e = .ok ⟨.loaded e, e.innerExprs, []⟩ := by
  cases ch with
  | loaded e =>
    obtain ⟨n, hn⟩ := exists_resolved e hloaded
    refine ⟨n, fun node m hm e' he' => ?_⟩
    obtain rfl := Child.loaded.inj he'
    exact hn node m hm
  | none | byHash x => exact ⟨0, fun _ _ _ _ he => (by cases he)⟩

end

end Resolving

section Hot

variable {blake3 : Bytes → Bytes}

theorem hotPayload_none (side : HotSide) : hotPayload .none side = none := by
  cases side with
  | absent x => rfl
  | loaded e x => cases e <;> rfl

mutual

theorem hash_hot (e : Expr) (hloaded : e.Loaded) : e.hot.hash blake3 = .ok (e.hash blake3) := by
  cases e with
  | link v h t =>
    rcases hloaded with ⟨rfl, hh, ht⟩ | ⟨rfl, tag, rfl, hholds⟩
    · have hhead := hash_hot_side h hh
      have htail := hash_hot_side t ht
      have hpayload : hotPayload .none t.hot = none := hotPayload_none _
      cases h with
      | byHash x => exact hh.elim
      | none | loaded e =>
        simp only [Expr.hot, HotExpr.hash, Child.hot, HotSide.hash?, hpayload, Expr.hash,
          payload_none, htail, py_ok_bind]
        rw [Child.hot] at hhead
        rw [hhead]
        rfl
    · obtain ⟨data, hpayload, hencode, -⟩ := payload_of_holds hholds
      have hhot : hotPayload v (Child.hot (.loaded (.symbol tag))) = some data := hencode
      simp only [Expr.hot, HotExpr.hash, Child.hot, HotSide.hash?, Expr.hash, hpayload]
      rw [Child.hot, Expr.hot] at hhot
      rw [hhot]
      rfl
  | bytesOf e => exact hloaded.elim
  | nil | symbol s | bytes b => rfl

theorem hash_hot_side (ch : Child) (hloaded : ch.Loaded) :
    ch.hot.hash blake3 = .ok (ch.hash blake3) := by
  cases ch with
  | loaded e => exact hash_hot e hloaded
  | none => rfl
  | byHash x => exact hloaded.elim

end

mutual

theorem exists_size_hot (e : Expr) (hloaded : e.Loaded) : ∃ n, e.hot.size = .ok n := by
  cases e with
  | link v h t =>
    obtain ⟨hh, ht⟩ := loaded_sides hloaded
    obtain ⟨m, hm⟩ := exists_size_hot_side h hh
    obtain ⟨n, hn⟩ := exists_size_hot_side t ht
    rw [Expr.hot, HotExpr.size.eq_def]
    dsimp only
    split
    · exact ⟨_, rfl⟩
    split
    · exact ⟨_, rfl⟩
    · rename_i heq
      rw [heq] at hm
      cases hm
    · rw [hm, hn]
      exact ⟨_, rfl⟩
  | bytesOf e => exact hloaded.elim
  | nil | symbol s | bytes b => exact ⟨_, rfl⟩

theorem exists_size_hot_side (ch : Child) (hloaded : ch.Loaded) : ∃ n, ch.hot.size = .ok n := by
  cases ch with
  | loaded e =>
    obtain ⟨n, hn⟩ := exists_size_hot e hloaded
    refine ⟨n, ?_⟩
    rw [Child.hot, HotSide.size, hn]
    rfl
  | none => exact ⟨_, rfl⟩
  | byHash x => exact hloaded.elim

end

end Hot

section Storing

variable (blake3 : Bytes → Bytes) {τ : Type} [LinearOrder τ] (time : Nat → τ) (limit : Int)

/-- Stores of cells one after the other, and the hashes of those that were stored. -/
def storeAll : List Expr → HotStorage τ → HotStorage τ × List Bytes
  | [], s => (s, [])
  | e :: exprs, s =>
    let stored := HotStorage.store blake3 time limit e.hot s
    let rest := storeAll exprs stored.1
    (rest.1, match stored.2 with
      | .ok true => e.hash blake3 :: rest.2
      | _ => rest.2)

theorem storeAll_append (exprs exprs' : List Expr) (s : HotStorage τ) :
    (storeAll blake3 time limit (exprs ++ exprs') s).1 =
      (storeAll blake3 time limit exprs' (storeAll blake3 time limit exprs s).1).1 := by
  induction exprs generalizing s with
  | nil => rfl
  | cons e exprs ih => exact ih _

theorem stored_sublist (exprs : List Expr) (s : HotStorage τ) :
    (storeAll blake3 time limit exprs s).2.Sublist (exprs.map (Expr.hash blake3)) := by
  induction exprs generalizing s with
  | nil => exact List.Sublist.refl _
  | cons e exprs ih =>
    rw [storeAll]
    dsimp only
    split
    · exact (ih _).cons_cons _
    · exact (ih _).cons _

/-- A cell that was loaded is stored or does not fit. -/
theorem exists_store {e : Expr} (hloaded : e.Loaded) (s : HotStorage τ) :
    ∃ b, (HotStorage.store blake3 time limit e.hot s).2 = .ok b := by
  obtain ⟨n, hn⟩ := exists_size_hot e hloaded
  rw [HotStorage.store, hash_hot e hloaded, hn]
  dsimp only
  split
  · exact ⟨false, rfl⟩
  split
  · exact ⟨false, rfl⟩
  · exact ⟨true, rfl⟩

/-- Where there is room for all, all is stored. -/
theorem stored_of_room {exprs : List Expr} (hloaded : ∀ e ∈ exprs, e.Loaded) (s : HotStorage τ)
    (hroom : s.size + ((exprs.map fun e => e.hot.cachedSize).sum : Nat) ≤ limit)
    (hfits : ∀ e ∈ exprs, (e.hot.cachedSize : Int) ≤ limit) :
    (storeAll blake3 time limit exprs s).2 = exprs.map (Expr.hash blake3) := by
  induction exprs generalizing s with
  | nil => rfl
  | cons e exprs ih =>
    have he := hloaded e List.mem_cons_self
    obtain ⟨n, hn⟩ := exists_size_hot e he
    have hcached : e.hot.cachedSize = n := by rw [HotExpr.cachedSize, hn]
    rw [List.map_cons, List.sum_cons, hcached] at hroom
    rw [Nat.cast_add] at hroom
    have hnn : ∀ x : Option HotExpr, 0 ≤ x.elim (0 : Int) fun x => (x.cachedSize : Int) := by
      intro x
      cases x with
      | none => exact le_rfl
      | some x => exact Int.natCast_nonneg _
    have hrest : (0 : Int) ≤ ((exprs.map fun e => e.hot.cachedSize).sum : Nat) :=
      Int.natCast_nonneg _
    have hfit := hfits e List.mem_cons_self
    rw [hcached] at hfit
    have hstore : ∃ s', HotStorage.store blake3 time limit e.hot s = (s', .ok true) ∧
        s'.size ≤ s.size + n := by
      have hex := hnn (s.exprs.get? (e.hash blake3))
      have hfree : s.size - ((s.exprs.get? (e.hash blake3)).elim (0 : Int) fun x =>
          (x.cachedSize : Int)) + n ≤ limit := by omega
      rw [HotStorage.store, hash_hot e he, hn]
      dsimp only
      rw [if_neg (not_lt.mpr hfit), HotStorage.makeRoom, if_pos hfree, if_neg (not_lt.mpr hfree)]
      refine ⟨_, rfl, ?_⟩
      dsimp only
      omega
    obtain ⟨s', hs', hsize⟩ := hstore
    rw [storeAll, hs']
    dsimp only
    rw [List.map_cons, ih (fun e' he' => hloaded e' (List.mem_cons_of_mem e he')) s' (by omega)
      fun e' he' => hfits e' (List.mem_cons_of_mem e he')]

variable {blake3 time limit}

theorem payload_hot {v : Val} {h t : Child} (hloaded : (Expr.link v h t).Loaded) :
    ∃ data : Option Bytes, builtinCompositePayload v h.hot t.hot = data ∧
      payloadCells v t = data.toList.map Expr.bytes := by
  rcases hloaded with ⟨rfl, -, -⟩ | ⟨rfl, tag, rfl, hholds⟩
  · refine ⟨none, ?_, ?_⟩
    · rw [builtinCompositePayload.eq_def]
      split
      · rw [tagByteEncode_of_none]
        exact ite_self _
      · rfl
    · rw [payloadCells, payload_none]
      rfl
  · obtain ⟨data, hpayload, hencode, -⟩ := payload_of_holds hholds
    refine ⟨some data, ?_, ?_⟩
    · change (if tag ∈ builtinCompositeTypeNames then tagByteEncode tag v else none) = _
      rw [if_pos (tagByteDecode_encode hholds).1, hencode]
    · rw [payloadCells, hpayload]
      rfl

variable (blake3 time limit) in
theorem store_eq {e : Expr} (hloaded : e.Loaded) (s : HotStorage τ) :
    ∃ b, HotStorage.store blake3 time limit e.hot s =
      ((storeAll blake3 time limit [e] s).1, .ok b) := by
  obtain ⟨b, hb⟩ := exists_store blake3 time limit hloaded s
  exact ⟨b, Prod.ext rfl hb⟩

mutual

/-- `put_expr_in_hot_storage` stores the cells of a loaded tree one after the other. -/
theorem putExpr_hot (e : Expr) (hloaded : e.Loaded) (s : HotStorage τ) :
    ∃ b, HotStorage.putExpr blake3 time limit e.hot s =
      ((storeAll blake3 time limit e.puts s).1, .ok b) := by
  cases e with
  | link v h t =>
    obtain ⟨hh, ht⟩ := loaded_sides hloaded
    obtain ⟨data, hdata, hcells⟩ := payload_hot hloaded
    obtain ⟨b, hb⟩ := putExpr_hot_side h hh s
    obtain ⟨b', hb'⟩ := putExpr_hot_side t ht (storeAll blake3 time limit h.puts s).1
    rw [Expr.puts, hcells, storeAll_append, storeAll_append, storeAll_append, Expr.hot,
      HotStorage.putExpr, hb, HotStorage.andThen]
    dsimp only
    rw [hb', HotStorage.andThen]
    dsimp only
    rw [hdata]
    cases data with
    | none => exact store_eq blake3 time limit hloaded _
    | some payload =>
      have hbytes : (Expr.bytes payload).Loaded := trivial
      obtain ⟨b'', hb''⟩ := store_eq blake3 time limit hbytes
        (storeAll blake3 time limit t.puts (storeAll blake3 time limit h.puts s).1).1
      change ∃ b, HotStorage.andThen (HotStorage.store blake3 time limit (Expr.bytes payload).hot _)
        _ = _
      rw [hb'', HotStorage.andThen]
      exact store_eq blake3 time limit hloaded _
  | bytesOf e => exact hloaded.elim
  | nil | symbol x | bytes x => exact store_eq blake3 time limit hloaded s

theorem putExpr_hot_side (ch : Child) (hloaded : ch.Loaded) (s : HotStorage τ) :
    ∃ b, HotStorage.putSide blake3 time limit ch.hot s =
      ((storeAll blake3 time limit ch.puts s).1, .ok b) := by
  cases ch with
  | loaded e => exact putExpr_hot e hloaded s
  | none => exact ⟨false, rfl⟩
  | byHash x => exact hloaded.elim

end

theorem loaded_part {e : Expr} (hloaded : e.Loaded) {c : CellSide × Expr} (hc : c ∈ e.parts) :
    c.2.Loaded := by
  cases e with
  | link v h t =>
    obtain ⟨hh, ht⟩ := loaded_sides hloaded
    rcases List.mem_append.mp hc with hc | hc
    · rcases List.mem_append.mp hc with hc | hc
      · obtain ⟨e, he, rfl⟩ := List.mem_map.mp hc
        cases h with
        | loaded e' =>
          obtain rfl := Option.some.inj (Option.mem_toList.mp he)
          exact hh
        | none | byHash x => cases he
      · obtain ⟨e, he, rfl⟩ := List.mem_map.mp hc
        cases t with
        | loaded e' =>
          obtain rfl := Option.some.inj (Option.mem_toList.mp he)
          exact ht
        | none | byHash x => cases he
    · obtain ⟨e, he, rfl⟩ := List.mem_map.mp hc
      rw [payloadCells] at he
      split at he
      · rw [List.mem_singleton.mp he]
        trivial
      · cases he
  | nil | symbol s | bytes b | bytesOf e => cases hc

theorem loaded_of_leads {e e' : Expr} {path : List CellSide} (hled : Leads Expr.parts e path e')
    (hloaded : e.Loaded) : e'.Loaded := by
  induction hled with
  | here => exact hloaded
  | down hy _ ih => exact ih (loaded_part hloaded hy)

theorem puts_loaded (e : Expr) (hloaded : e.Loaded) : ∀ c ∈ e.puts, c.Loaded := by
  obtain ⟨order, horder, hperm⟩ := exists_order_puts e
  intro c hc
  obtain ⟨p, hp, rfl⟩ := List.mem_map.mp (hperm.mem_iff.mpr hc)
  exact loaded_of_leads ((horder.all p).mp hp) hloaded

variable (time) in
/-- Each cell is stored at most once, whatever the limit and the storage, just if all cells are
put once. -/
theorem nodup_stored_iff {e : Expr} (hloaded : e.Loaded) :
    (∀ limit (s : HotStorage τ), (storeAll blake3 time limit e.puts s).2.Nodup) ↔
      (e.puts.map (Expr.hash blake3)).Nodup := by
  constructor
  · intro hall
    have hfits : ∀ c ∈ e.puts, c.hot.cachedSize ≤ (e.puts.map fun e => e.hot.cachedSize).sum :=
      fun c hc => List.single_le_sum (fun _ _ => Nat.zero_le _) _ (List.mem_map_of_mem hc)
    have hstored := stored_of_room blake3 time ((e.puts.map fun e => e.hot.cachedSize).sum : Nat)
      (puts_loaded e hloaded) HotStorage.empty (by simp [HotStorage.empty])
      fun c hc => by exact_mod_cast hfits c hc
    rw [← hstored]
    exact hall _ _
  · exact fun hputs limit s => hputs.sublist (stored_sublist blake3 time limit e.puts s)

end Storing

section Walking

variable (node : Node)

/-- A rule at its place in the shape, and a hash. -/
abbrev PlacedRule : Type := (List CellSide × ShapeRule) × Bytes

/-- `rulesBelow` with the places of the rules. -/
def placedRules (place : List CellSide) (rule : ShapeRule) (head tail : Bytes) :
    List (CellSide × PlacedRule) :=
  match rule with
  | .pair headRule tailRule =>
    [(.head, ((place ++ [.head], headRule), head)), (.tail, ((place ++ [.tail], tailRule), tail))]
  | .rep headRule =>
    [(.head, ((place ++ [.head], headRule), head)), (.tail, ((place, rule), tail))]
  | _ => []

/-- Whether the walk calls `load` for a rule and a hash. -/
def loads (q : PlacedRule) : Bool := !(decide (q.1.2 = .hold) || skipsHash node q.2)

/-- What the walk pushes for a rule and a hash. -/
def placedBelow (q : PlacedRule) : List (CellSide × PlacedRule) :=
  if loads node q = true then
    match node.stored q.2 with
    | none => []
    | some e =>
      if e.base = .link then
        placedRules q.1.1 q.1.2 (e.getHeadHash node.blake3) (e.getTailHash node.blake3)
      else []
  else []

/-- What `walk_shape` visits in its first steps. -/
def shapeVisits (n : Nat) (rule : ShapeRule) (root : Bytes) : List PlacedRule :=
  (visits (placedBelow node) n [([], (([], rule), root))]).map Prod.snd

/-- The calls of `load`, each with the place of its rule in the shape. -/
def shapeLoads (n : Nat) (rule : ShapeRule) (root : Bytes) : List (List CellSide × Bytes) :=
  ((shapeVisits node n rule root).filter (loads node)).map fun q => (q.1.1, q.2)

/-- What one load adds to the result. -/
def recordLoad (r : List (Bytes × Expr) × List Bytes) (h : Bytes) :
    List (Bytes × Expr) × List Bytes :=
  match node.stored h with
  | none => (r.1, if h ∈ r.2 then r.2 else r.2 ++ [h])
  | some e => (if h ∈ r.1.map Prod.fst then r.1 else r.1 ++ [(h, e)], r.2)

variable {node}

theorem forget_placedBelow {q : PlacedRule} {e : Expr} (hloads : loads node q = true)
    (hget : node.stored q.2 = some e) :
    (placedBelow node q).map (fun c => (c.2.1.2, c.2.2)) = belowCell node q.1.2 e := by
  rw [placedBelow, if_pos hloads, hget, belowCell]
  dsimp only
  split
  · rcases q with ⟨⟨place, rule⟩, h⟩
    cases rule <;> rfl
  · rfl

/-- The result of the walk is that of the loads, one after the other. -/
theorem walkShapeFrom_loads (n : Nat) (stack : List (List CellSide × PlacedRule))
    (found : List (Bytes × Expr)) (missing : List Bytes)
    {r : List (Bytes × Expr) × List Bytes}
    (hrun : walkShapeFrom node n (stack.map fun p => (p.2.1.2, p.2.2)) found missing = .ok r) :
    r = ((((visits (placedBelow node) n stack).map Prod.snd).filter (loads node)).map
      Prod.snd).foldl (recordLoad node) (found, missing) := by
  induction n generalizing stack found missing with
  | zero =>
    cases stack with
    | nil =>
      cases hrun
      rfl
    | cons p stack => cases hrun
  | succ n ih =>
    cases stack with
    | nil =>
      cases hrun
      rfl
    | cons p stack =>
      rcases p with ⟨path, ⟨⟨place, rule⟩, h⟩⟩
      rw [List.map_cons, walkShapeFrom] at hrun
      rw [visits, List.map_cons]
      split at hrun
      · rename_i hpass
        have hnot : loads node ((place, rule), h) = false := by
          rcases hpass with hpass | hpass <;> simp_all [loads]
        have hnone : placedBelow node ((place, rule), h) = [] := by
          rw [placedBelow, if_neg (by rw [hnot]; exact Bool.false_ne_true)]
        rw [List.filter_cons_of_neg (by rw [hnot]; exact Bool.false_ne_true), branches, hnone]
        exact ih stack found missing hrun
      rename_i hpass
      obtain ⟨hrule, hskip⟩ := not_or.mp hpass
      have hloads : loads node ((place, rule), h) = true := by simp [loads, hrule, hskip]
      rw [List.filter_cons_of_pos hloads, List.map_cons, List.foldl_cons]
      split at hrun
      · rename_i hget
        have hnone : placedBelow node ((place, rule), h) = [] := by
          rw [placedBelow, if_pos hloads, hget]
        rw [branches, hnone, recordLoad, hget]
        exact ih stack _ _ hrun
      · rename_i e hget
        rw [← forget_placedBelow hloads hget] at hrun
        rw [recordLoad, hget]
        refine ih (branches (placedBelow node) (path, ((place, rule), h)) ++ stack) _ _ ?_
        rw [List.map_append, branches, List.map_map]
        exact hrun

theorem nodup_placedBelow (q : PlacedRule) : ((placedBelow node q).map Prod.fst).Nodup := by
  rw [placedBelow]
  split
  · split
    · exact List.nodup_nil
    split
    · rw [placedRules.eq_def]
      split <;> simp
    · exact List.nodup_nil
  · exact List.nodup_nil

theorem length_placedBelow (q : PlacedRule) :
    (placedBelow node q).length ≤ if loads node q = true then 2 else 0 := by
  rw [placedBelow]
  split
  · split
    · exact Nat.zero_le _
    split
    · rw [placedRules.eq_def]
      split <;> simp
    · exact Nat.zero_le _
  · exact le_rfl

/-- The rules of a shape with their places. -/
def ShapeRule.places (place : List CellSide) : ShapeRule → List (List CellSide × ShapeRule)
  | .pair head tail => (place, .pair head tail) ::
      (head.places (place ++ [.head]) ++ tail.places (place ++ [.tail]))
  | .rep head => (place, .rep head) :: head.places (place ++ [.head])
  | rule => [(place, rule)]

theorem ShapeRule.mem_places (place : List CellSide) (rule : ShapeRule) :
    (place, rule) ∈ rule.places place := by
  cases rule <;> exact List.mem_cons_self

theorem ShapeRule.places_subset {place place' : List CellSide} {rule rule' : ShapeRule}
    (h : (place', rule') ∈ rule.places place) : rule'.places place' ⊆ rule.places place := by
  induction rule generalizing place with
  | hold | send =>
    obtain ⟨rfl, rfl⟩ := Prod.mk.inj (List.mem_singleton.mp h)
    exact List.Subset.refl _
  | pair head tail ihh iht =>
    rw [ShapeRule.places] at h ⊢
    rcases List.mem_cons.mp h with heq | h
    · obtain ⟨rfl, rfl⟩ := Prod.mk.inj heq
      exact List.Subset.refl _
    rcases List.mem_append.mp h with h | h
    · exact fun x hx => List.mem_cons_of_mem _ (List.mem_append_left _ (ihh h hx))
    · exact fun x hx => List.mem_cons_of_mem _ (List.mem_append_right _ (iht h hx))
  | rep head ih =>
    rw [ShapeRule.places] at h ⊢
    rcases List.mem_cons.mp h with heq | h
    · obtain ⟨rfl, rfl⟩ := Prod.mk.inj heq
      exact List.Subset.refl _
    · exact fun x hx => List.mem_cons_of_mem _ (ih h hx)

/-- The hashes that stored cells name. -/
def namedHashes (node : Node) (hashes : List Bytes) : List Bytes :=
  hashes.flatMap fun h => (node.stored h).elim [] fun e =>
    [e.getHeadHash node.blake3, e.getTailHash node.blake3]

/-- What a walk leads to is a rule of the shape at a hash that a stored cell names. -/
theorem led_bounded {hashes : List Bytes} (hfinite : ∀ h e, node.stored h = some e → h ∈ hashes)
    {rule : ShapeRule} {bound : List Bytes} (hbound : namedHashes node hashes ⊆ bound)
    {q q' : PlacedRule} {path : List CellSide} (hled : Leads (placedBelow node) q path q')
    (hq : q.1 ∈ rule.places [] ∧ q.2 ∈ bound) : q'.1 ∈ rule.places [] ∧ q'.2 ∈ bound := by
  induction hled with
  | here => exact hq
  | down hy _ ih =>
    rename_i x y z b path hz
    refine ih ?_
    rcases x with ⟨⟨place, r⟩, h⟩
    rw [placedBelow] at hy
    split at hy
    swap
    · cases hy
    split at hy
    · cases hy
    rename_i e hget
    split at hy
    swap
    · cases hy
    have hnamed : ∀ x ∈ [e.getHeadHash node.blake3, e.getTailHash node.blake3], x ∈ bound := by
      intro x hx
      refine hbound (List.mem_flatMap.mpr ⟨h, hfinite h e hget, ?_⟩)
      rw [hget]
      exact hx
    have hhead := hnamed _ List.mem_cons_self
    have htail := hnamed _ (List.mem_cons_of_mem _ List.mem_cons_self)
    have hplaces := ShapeRule.places_subset hq.1
    dsimp only at hy
    rw [placedRules.eq_def] at hy
    split at hy
    · rcases List.mem_pair.mp hy with heq | heq <;> cases heq
      · refine ⟨hplaces ?_, hhead⟩
        exact List.mem_cons_of_mem _ (List.mem_append_left _ (ShapeRule.mem_places _ _))
      · refine ⟨hplaces ?_, htail⟩
        exact List.mem_cons_of_mem _ (List.mem_append_right _ (ShapeRule.mem_places _ _))
    · rcases List.mem_pair.mp hy with heq | heq <;> cases heq
      · exact ⟨hplaces (List.mem_cons_of_mem _ (ShapeRule.mem_places _ _)), hhead⟩
      · exact ⟨hq.1, htail⟩
    · cases hy

/-- No two paths of the walk lead to a load of one rule and hash. -/
def UnsharedLoads (node : Node) (rule : ShapeRule) (root : Bytes) : Prop :=
  Unshared (placedBelow node) (fun q => (q.1.1, q.2)) (loads node) (([], rule), root)

theorem nodup_shapeLoads_iff {hashes : List Bytes}
    (hfinite : ∀ h e, node.stored h = some e → h ∈ hashes) (rule : ShapeRule) (root : Bytes) :
    (∀ n, (shapeLoads node n rule root).Nodup) ↔ UnsharedLoads node rule root := by
  refine nodup_visits_iff nodup_placedBelow
    (((rule.places []).map Prod.fst).product (root :: namedHashes node hashes))
    length_placedBelow fun path q hled _ => ?_
  obtain ⟨hplace, hhash⟩ := led_bounded hfinite (List.subset_cons_self root _) hled
    ⟨ShapeRule.mem_places [] rule, List.mem_cons_self⟩
  exact List.mem_product.mpr ⟨List.mem_map_of_mem hplace, hhash⟩

end Walking

section Results

/-- `resolve_inner_exprs` returns no cell twice. -/
def ResolvesOnce (node : Node) (e : Expr) : Prop :=
  ∃ n cells, (∀ fuel, n ≤ fuel →
      resolveInnerExprs { node with fuel := fuel } e = .ok (cells, [])) ∧
    (cells.map node.hash).Nodup

/-- `put_expr_in_hot_storage` stores one cell after the other, and none twice. -/
def HotStoresOnce (blake3 : Bytes → Bytes) {τ : Type} [LinearOrder τ] (time : Nat → τ) (e : Expr) :
    Prop :=
  ∀ limit (s : HotStorage τ),
    (HotStorage.putExpr blake3 time limit e.hot s).1 = (storeAll blake3 time limit e.puts s).1 ∧
      (storeAll blake3 time limit e.puts s).2.Nodup

/-- `put_expr_in_cold_storage` writes no cell twice. -/
def ColdStoresOnce (blake3 : Bytes → Bytes) (e : Expr) : Prop :=
  ((putExpr blake3 (e, none)).map Prod.fst).Nodup

/-- `walk_shape` calls `load` at most once for a rule of the shape and a hash, however far it gets,
and its result is that of the calls. -/
def LoadsOnce (node : Node) (rule : ShapeRule) (root : Bytes) : Prop :=
  ∀ n, (shapeLoads node n rule root).Nodup ∧
    ∀ r, walkShapeFrom node n [(rule, root)] [] [] = .ok r →
      r = ((shapeLoads node n rule root).map Prod.snd).foldl (recordLoad node) ([], [])

theorem resolvesOnce_iff {node : Node} {e : Expr} (hloaded : e.Loaded) :
    ResolvesOnce node e ↔ UnsharedCells node.hash Expr.sides e := by
  obtain ⟨n, hn⟩ := exists_resolved e hloaded
  have hrun : ∀ fuel, n ≤ fuel →
      resolveInnerExprs { node with fuel := fuel } e = .ok (e.innerExprs, []) := by
    intro fuel hfuel
    rw [resolveInnerExprs, hn { node with fuel := fuel } fuel hfuel]
    rfl
  rw [← nodup_innerExprs_iff]
  constructor
  · rintro ⟨m, cells, hcells, hnodup⟩
    have heq := (hcells (max m n) (le_max_left m n)).symm.trans (hrun _ (le_max_right m n))
    obtain ⟨rfl, -⟩ := Prod.mk.inj (Except.ok.inj heq)
    exact hnodup
  · exact fun hnodup => ⟨n, _, hrun, hnodup⟩

theorem hotStoresOnce_iff {blake3 : Bytes → Bytes} {τ : Type} [LinearOrder τ] {time : Nat → τ}
    {e : Expr} (hloaded : e.Loaded) :
    HotStoresOnce blake3 time e ↔ UnsharedCells (Expr.hash blake3) Expr.parts e := by
  rw [← nodup_puts_iff, ← nodup_stored_iff time hloaded]
  constructor
  · exact fun hall limit s => (hall limit s).2
  · intro hall limit s
    obtain ⟨b, hb⟩ : ∃ b, HotStorage.putExpr blake3 time limit e.hot s =
        ((storeAll blake3 time limit e.puts s).1, .ok b) := putExpr_hot e hloaded s
    exact ⟨congrArg Prod.fst hb, hall limit s⟩

theorem coldStoresOnce_iff {blake3 : Bytes → Bytes} {e : Expr} :
    ColdStoresOnce blake3 e ↔ UnsharedCells (Expr.hash blake3) Expr.parts e := by
  rw [← nodup_puts_iff, ColdStoresOnce, putExpr, List.map_map]
  rfl

theorem loadsOnce_iff {node : Node} {hashes : List Bytes}
    (hfinite : ∀ h e, node.stored h = some e → h ∈ hashes) {rule : ShapeRule} {root : Bytes} :
    LoadsOnce node rule root ↔ UnsharedLoads node rule root := by
  rw [← nodup_shapeLoads_iff hfinite]
  refine ⟨fun hall n => (hall n).1, fun hall n => ⟨hall n, fun r hrun => ?_⟩⟩
  rw [shapeLoads, List.map_map]
  exact walkShapeFrom_loads n [([], (([], rule), root))] [] [] hrun

/-- A transaction of which the amount and the chain id are ints. -/
def fiveTransaction : Expr :=
  link (link (bodyWith (int_ 5)) (link (.bytes (List.replicate 64 3)) .nil)) (.symbol "transaction")

/-- The type of two ints stands at two places of a transaction. -/
theorem type_is_shared (key : Expr → Bytes) : ¬UnsharedCells key Expr.sides fiveTransaction := by
  intro hunshared
  have hfirst : Leads Expr.sides fiveTransaction [.head, .head, .head, .tail] (.symbol "int") :=
    .down List.mem_cons_self <| .down List.mem_cons_self <| .down List.mem_cons_self <|
      .down List.mem_cons_self <| .here _
  have hsecond : Leads Expr.sides fiveTransaction [.head, .head, .tail, .head, .tail]
      (.symbol "int") :=
    .down List.mem_cons_self <| .down List.mem_cons_self <|
      .down (List.mem_cons_of_mem _ List.mem_cons_self) <| .down List.mem_cons_self <|
      .down List.mem_cons_self <| .here _
  exact absurd (hunshared _ _ _ _ hfirst hsecond rfl rfl rfl) (by decide)

theorem loaded_fiveTransaction : fiveTransaction.Loaded := by
  have hbody : (bodyWith (int_ 5)).Loaded := by
    refine loaded_link (loaded_int 5) ?_
    iterate 4 refine loaded_link (loaded_int 0) ?_
    exact loaded_link trivial (loaded_link trivial (loaded_link trivial trivial))
  exact loaded_link (loaded_link hbody (loaded_link trivial trivial)) trivial

/-- A list with one cell at both of its places. -/
def pairNode : Node :=
  { bareNode with
    stored := fun h =>
      if h = [1] then some (.link .none (.byHash [3]) (.byHash [2]))
      else if h = [2] then some (.link .none (.byHash [3]) (.byHash zero32))
      else if h = [3] then some (.bytes [7])
      else none }

end Results

end Astreum

import Astreum.Cells
import Mathlib.Order.Lattice

namespace Astreum

mutual

/-- A cell as an object: a side of a link can hold both a cell and the hash it was loaded by. -/
inductive HotExpr where
  | nil
  | symbol (value : String)
  | bytes (value : Bytes)
  | bytesOf (value : HotExpr)
  | link (value : Val) (head tail : HotSide)

inductive HotSide where
  | absent (hash : Option Bytes)
  | loaded (e : HotExpr) (hash : Option Bytes)

end

def HotSide.hash? : HotSide → Option Bytes
  | .absent hash => hash
  | .loaded _ hash => hash

/-- The encoded value of a cell with a value under a type symbol. -/
def hotPayload : Val → HotSide → Option Bytes
  | v, .loaded (.symbol tag) _ => tagByteEncode tag v
  | _, _ => none

/-- `builtin_composite_payload`. -/
def builtinCompositePayload : Val → HotSide → HotSide → Option Bytes
  | v, .absent _, .loaded (.symbol tag) _ =>
    if tag ∈ builtinCompositeTypeNames then tagByteEncode tag v else none
  | _, _, _ => none

section Hashing

variable (blake3 : Bytes → Bytes)

mutual

def HotExpr.hash : HotExpr → Py Bytes
  | .nil => .ok zero32
  | .symbol s => .ok (terminalHash blake3 1 (utf8 s))
  | .bytes b => .ok (terminalHash blake3 2 b)
  | .bytesOf _ => .error .typeError
  | .link v head tail => do
    let headHash ← match head.hash? with
      | some x => .ok x
      | none => match hotPayload v tail with
        | some p => .ok (terminalHash blake3 2 p)
        | none => head.hash
    let tailHash ← tail.hash
    return linkHash blake3 headHash tailHash

def HotSide.hash : HotSide → Py Bytes
  | .absent hash => .ok (hash.getD zero32)
  | .loaded e hash => match hash with
    | some x => .ok x
    | none => e.hash

end

end Hashing

mutual

def HotExpr.size : HotExpr → Py Nat
  | .nil => .ok 64
  | .symbol s => .ok (utf8 s).length
  | .bytes b => .ok b.length
  | .bytesOf _ => .error .typeError
  | .link v head tail => match hotPayload v tail with
    | some p => .ok p.length
    | none => match head with
      | .loaded (.bytes b) _ => .ok b.length
      | .loaded (.bytesOf _) _ => .error .typeError
      | head => do
        let h ← head.size
        let t ← tail.size
        return h + t

/-- A side that has its hash counts as 32 bytes, once its cell has a size. -/
def HotSide.size : HotSide → Py Nat
  | .absent _ => .ok 32
  | .loaded e hash => do
    let size ← e.size
    return if hash.isSome then 32 else size

end

/-- The `_size` of a cell that was put. -/
def HotExpr.cachedSize (e : HotExpr) : Nat :=
  match e.size with
  | .ok n => n
  | .error _ => 0

/-- The hot storage of a node, with the number of readings of its clock. -/
structure HotStorage (τ : Type) where
  exprs : Dict Bytes HotExpr
  timestamps : Dict Bytes τ
  size : Int
  readings : Nat

namespace HotStorage

variable {τ : Type} [LinearOrder τ] (blake3 : Bytes → Bytes) (time : Nat → τ) (limit : Int)

def empty : HotStorage τ := ⟨Dict.empty, Dict.empty, 0, 0⟩

/-- `get_expr_from_hot_storage`. -/
def getExpr (exprId : Bytes) (s : HotStorage τ) : Option HotExpr × HotStorage τ :=
  match s.exprs.get? exprId with
  | some e => (some e, { s with
      timestamps := s.timestamps.insert exprId (time s.readings), readings := s.readings + 1 })
  | none => (none, s)

/-- The first of the oldest entries, of those that are not `kept`. -/
def victimOf (kept : Option Bytes) (timestamps : List (Bytes × τ)) : Option (Bytes × τ) :=
  timestamps.foldl (fun victim candidate =>
    if kept = some candidate.1 then victim
    else match victim with
      | none => some candidate
      | some v => if candidate.2 < v.2 then some candidate else some v) none

/-- An entry is taken out with its size. -/
def evict (victim : Bytes) (s : HotStorage τ) : HotStorage τ :=
  { s with
    exprs := s.exprs.erase victim
    timestamps := s.timestamps.erase victim
    size := match s.exprs.get? victim with
      | some e => s.size - e.cachedSize
      | none => s.size }

theorem victimOf_mem {kept : Option Bytes} {timestamps : List (Bytes × τ)} {v : Bytes × τ}
    (h : victimOf kept timestamps = some v) : v ∈ timestamps ∧ kept ≠ some v.1 := by
  have hfold : ∀ (rest : List (Bytes × τ)) (best : Option (Bytes × τ)),
      rest.foldl (fun victim candidate =>
        if kept = some candidate.1 then victim
        else match victim with
          | none => some candidate
          | some v => if candidate.2 < v.2 then some candidate else some v) best = some v →
        best = some v ∨ v ∈ rest ∧ kept ≠ some v.1 := by
    intro rest
    induction rest with
    | nil => exact fun best hbest => .inl hbest
    | cons candidate rest ih =>
      intro best hbest
      rw [List.foldl_cons] at hbest
      rcases ih _ hbest with hfound | ⟨hmem, hkept⟩
      · split at hfound
        · exact .inl hfound
        · rename_i hkept
          cases best with
          | none =>
            obtain rfl := Option.some.inj hfound
            exact .inr ⟨List.mem_cons_self, hkept⟩
          | some b =>
            dsimp only at hfound
            split at hfound
            · obtain rfl := Option.some.inj hfound
              exact .inr ⟨List.mem_cons_self, hkept⟩
            · exact .inl hfound
      · exact .inr ⟨List.mem_cons_of_mem _ hmem, hkept⟩
  rcases hfold timestamps none h with hnone | hfound
  · cases hnone
  · exact hfound

omit [LinearOrder τ] in
theorem length_timestamps_evict {s : HotStorage τ} {v : Bytes × τ} (h : v ∈ s.timestamps.pairs) :
    (evict v.1 s).timestamps.pairs.length < s.timestamps.pairs.length :=
  List.length_filter_lt_length_iff_exists.mpr ⟨v, h, by simp⟩

/-- The loop that takes out entries until a cell of `size` bytes fits at `key`. -/
def makeRoom (key : Bytes) (kept : Option Bytes) (existingSize size : Int) (s : HotStorage τ) :
    HotStorage τ :=
  if s.size - existingSize + size ≤ limit then s
  else if s.timestamps.pairs = [] then s
  else if kept.isSome ∧ s.timestamps.pairs.length = 1 ∧ key ∈ s.timestamps.keys then s
  else match _h : victimOf kept s.timestamps.pairs with
    | none => s
    | some v => makeRoom key kept existingSize size (evict v.1 s)
termination_by s.timestamps.pairs.length
decreasing_by exact length_timestamps_evict (victimOf_mem _h).1

/-- What `put_expr_in_hot_storage` does for a cell behind its parts. -/
def store (e : HotExpr) (s : HotStorage τ) : HotStorage τ × Py Bool :=
  match e.hash blake3 with
  | .error err => (s, .error err)
  | .ok key => match e.size with
    | .error err => (s, .error err)
    | .ok size =>
      if limit < size then (s, .ok false)
      else
        let existing := s.exprs.get? key
        let existingSize : Int := existing.elim 0 fun x => x.cachedSize
        let s := makeRoom limit key (existing.map fun _ => key) existingSize size s
        if limit < s.size - existingSize + size then (s, .ok false)
        else ({ exprs := s.exprs.insert key e
                timestamps := s.timestamps.insert key (time s.readings)
                size := s.size - existingSize + size
                readings := s.readings + 1 }, .ok true)

/-- The next part is put unless the one before it raised. -/
def andThen (r : HotStorage τ × Py Bool) (next : HotStorage τ → HotStorage τ × Py Bool) :
    HotStorage τ × Py Bool :=
  match r.2 with
  | .error err => (r.1, .error err)
  | .ok _ => next r.1

mutual

/-- `put_expr_in_hot_storage`. -/
def putExpr : HotExpr → HotStorage τ → HotStorage τ × Py Bool
  | .link v head tail, s =>
    andThen (putSide head s) fun s => andThen (putSide tail s) fun s =>
      andThen (match builtinCompositePayload v head tail with
        | some payload => store blake3 time limit (.bytes payload) s
        | none => (s, .ok false)) fun s => store blake3 time limit (.link v head tail) s
  | .nil, s => store blake3 time limit .nil s
  | .symbol x, s => store blake3 time limit (.symbol x) s
  | .bytes x, s => store blake3 time limit (.bytes x) s
  | .bytesOf x, s => store blake3 time limit (.bytesOf x) s

def putSide : HotSide → HotStorage τ → HotStorage τ × Py Bool
  | .absent _, s => (s, .ok false)
  | .loaded e _, s => putExpr e s

end

/-- A call on the hot storage. -/
inductive Call where
  | put (e : HotExpr)
  | get (exprId : Bytes)

def call (s : HotStorage τ) : Call → HotStorage τ
  | .put e => (putExpr blake3 time limit e s).1
  | .get exprId => (getExpr time exprId s).2

def run (calls : List Call) : HotStorage τ := calls.foldl (call blake3 time limit) empty

section Accounting

/-- The size is that of the cells, within the limit, and a cell has a timestamp just if it is
stored. -/
structure Accounted (s : HotStorage τ) : Prop where
  size : s.size = s.exprs.sum fun _ e => e.cachedSize
  limited : s.size ≤ max limit 0
  timestamps : ∀ k, k ∈ s.timestamps.keys ↔ k ∈ s.exprs.keys
  sized : ∀ k e, s.exprs.get? k = some e → e.size = .ok e.cachedSize

variable {blake3 time limit} {s : HotStorage τ} {e : HotExpr}

omit [LinearOrder τ] in
theorem accounted_empty : Accounted limit (empty : HotStorage τ) :=
  ⟨rfl, le_max_right _ _, fun _ => Iff.rfl, fun _ _ h => by cases h⟩

omit [LinearOrder τ] in
theorem Accounted.evict (h : Accounted limit s) (victim : Bytes) :
    Accounted limit (evict victim s) := by
  have hsum := Dict.sum_erase (fun _ (x : HotExpr) => (x.cachedSize : Int)) s.exprs victim
  refine ⟨?_, ?_, fun k => ?_, fun k x hx => ?_⟩
  · change _ = (s.exprs.erase victim).sum _
    rw [hsum, ← h.size, HotStorage.evict]
    cases s.exprs.get? victim with
    | none => exact (sub_zero _).symm
    | some x => rfl
  · have hle := h.limited
    rw [HotStorage.evict]
    cases s.exprs.get? victim with
    | none => exact hle
    | some x =>
      dsimp only
      omega
  · change k ∈ (s.timestamps.erase victim).keys ↔ k ∈ (s.exprs.erase victim).keys
    rw [Dict.mem_keys_erase, Dict.mem_keys_erase, h.timestamps]
  · change (s.exprs.erase victim).get? k = some x at hx
    rw [Dict.get?_erase] at hx
    split at hx
    · cases hx
    · exact h.sized k x hx

/-- What every eviction keeps the loop keeps. -/
theorem makeRoom_induction {P : HotStorage τ → Prop} {key : Bytes} {kept : Option Bytes}
    {existingSize size : Int} (hevict : ∀ s k, kept ≠ some k → P s → P (HotStorage.evict k s))
    (hs : P s) : P (makeRoom limit key kept existingSize size s) := by
  fun_induction makeRoom with
  | case1 => exact hs
  | case2 => exact hs
  | case3 => exact hs
  | case4 => exact hs
  | case5 s _ _ _ v hv ih => exact ih (hevict s v.1 (victimOf_mem hv).2 hs)

theorem accounted_makeRoom {key : Bytes} {kept : Option Bytes} {existingSize size : Int}
    (h : Accounted limit s) : Accounted limit (makeRoom limit key kept existingSize size s) :=
  makeRoom_induction (fun _ k _ hs => hs.evict k) h

/-- The loop leaves the entry that is replaced. -/
theorem get?_makeRoom {key : Bytes} {existingSize size : Int} :
    (makeRoom limit key ((s.exprs.get? key).map fun _ => key) existingSize size s).exprs.get? key =
      s.exprs.get? key := by
  refine makeRoom_induction (P := fun s' => s'.exprs.get? key = s.exprs.get? key)
    (fun s' k hk hs' => ?_) rfl
  change (s'.exprs.erase k).get? key = _
  rw [Dict.get?_erase]
  split
  · rename_i hkey
    cases hget : s.exprs.get? key with
    | none => rfl
    | some x => exact absurd (by rw [hget, hkey]; rfl) hk
  · exact hs'

theorem accounted_store (h : Accounted limit s) :
    Accounted limit (store blake3 time limit e s).1 := by
  rw [store]
  split
  · exact h
  rename_i key hkey
  split
  · exact h
  rename_i size hsize
  split
  · exact h
  rename_i hlimit
  dsimp only
  obtain ⟨existingSize, hexisting⟩ : ∃ n : Int,
      n = (s.exprs.get? key).elim 0 fun x => (x.cachedSize : Int) := ⟨_, rfl⟩
  rw [← hexisting]
  have hget := @get?_makeRoom τ _ limit s key existingSize size
  obtain ⟨room, hroom⟩ : ∃ room, room =
      makeRoom limit key ((s.exprs.get? key).map fun _ => key) existingSize size s := ⟨_, rfl⟩
  rw [← hroom] at hget ⊢
  replace hroom : Accounted limit room := hroom ▸ accounted_makeRoom h
  have hcached : (e.cachedSize : Int) = size := by rw [HotExpr.cachedSize, hsize]
  split
  · exact hroom
  · rename_i hfits
    refine ⟨?_, ?_, fun k => ?_, fun k x hx => ?_⟩
    · dsimp only
      rw [Dict.sum_insert, ← hroom.size, hget, hcached, hexisting]
      ring
    · exact le_max_of_le_left (not_lt.mp hfits)
    · rw [Dict.mem_keys_insert, Dict.mem_keys_insert, hroom.timestamps]
    · rw [Dict.get?_insert] at hx
      split at hx
      · obtain rfl := Option.some.inj hx
        rw [HotExpr.cachedSize, hsize]
      · exact hroom.sized k x hx

theorem stored_of_true {s' : HotStorage τ} (h : store blake3 time limit e s = (s', .ok true)) :
    ∃ key, e.hash blake3 = .ok key ∧ s'.exprs.get? key = some e := by
  rw [store] at h
  split at h
  · cases h
  rename_i key hkey
  split at h
  · cases h
  split at h
  · cases h
  dsimp only at h
  split at h
  · cases h
  · obtain ⟨rfl, -⟩ := Prod.mk.inj h
    exact ⟨key, hkey, Dict.get?_insert_self _ _ _⟩

omit [LinearOrder τ] in
theorem accounted_andThen {r : HotStorage τ × Py Bool}
    {next : HotStorage τ → HotStorage τ × Py Bool} (hr : Accounted limit r.1)
    (hnext : ∀ s, Accounted limit s → Accounted limit (next s).1) :
    Accounted limit (andThen r next).1 := by
  rw [andThen]
  split
  · exact hr
  · exact hnext _ hr

mutual

theorem accounted_putExpr (e : HotExpr) {s : HotStorage τ} (h : Accounted limit s) :
    Accounted limit (putExpr blake3 time limit e s).1 := by
  cases e with
  | nil => exact accounted_store h
  | symbol x => exact accounted_store h
  | bytes x => exact accounted_store h
  | bytesOf x => exact accounted_store h
  | link v head tail =>
    refine accounted_andThen (accounted_putSide head h) fun s₁ h₁ => ?_
    refine accounted_andThen (accounted_putSide tail h₁) fun s₂ h₂ => ?_
    refine accounted_andThen ?_ fun s₃ h₃ => accounted_store h₃
    split
    · exact accounted_store h₂
    · exact h₂

theorem accounted_putSide (side : HotSide) {s : HotStorage τ} (h : Accounted limit s) :
    Accounted limit (putSide blake3 time limit side s).1 := by
  cases side with
  | absent x => exact h
  | loaded e x => exact accounted_putExpr e h

end

omit [LinearOrder τ] in
theorem andThen_eq_true {r : HotStorage τ × Py Bool} {s' : HotStorage τ}
    {next : HotStorage τ → HotStorage τ × Py Bool} (h : andThen r next = (s', .ok true)) :
    ∃ s, next s = (s', .ok true) := by
  rw [andThen] at h
  split at h
  · cases h
  · exact ⟨_, h⟩

theorem put_of_true {s' : HotStorage τ} (h : putExpr blake3 time limit e s = (s', .ok true)) :
    ∃ key, e.hash blake3 = .ok key ∧ s'.exprs.get? key = some e := by
  cases e with
  | nil | symbol x | bytes x | bytesOf x =>
    rw [putExpr] at h
    exact stored_of_true h
  | link v head tail =>
    rw [putExpr] at h
    obtain ⟨s₁, h₁⟩ := andThen_eq_true h
    obtain ⟨s₂, h₂⟩ := andThen_eq_true h₁
    obtain ⟨s₃, h₃⟩ := andThen_eq_true h₂
    exact stored_of_true h₃

theorem accounted_call (h : Accounted limit s) (c : Call) :
    Accounted limit (call blake3 time limit s c) := by
  cases c with
  | put e => exact accounted_putExpr e h
  | get exprId =>
    rw [call, getExpr]
    split
    · rename_i x hx
      refine ⟨h.size, h.limited, fun k => ?_, h.sized⟩
      rw [Dict.mem_keys_insert, h.timestamps, or_iff_right_of_imp]
      rintro rfl
      by_contra hkey
      rw [Dict.get?_eq_none.mpr hkey] at hx
      cases hx
    · exact h

theorem accounted_run (calls : List Call) : Accounted limit (run blake3 time limit calls) := by
  rw [run]
  generalize hs : (empty : HotStorage τ) = s
  have h : Accounted limit s := hs ▸ accounted_empty
  clear hs
  induction calls generalizing s with
  | nil => exact h
  | cons c calls ih => exact ih _ (accounted_call h c)

end Accounting

/-- After any calls the size is that of the stored cells and within a limit that is not negative,
the timestamps are those of the stored cells, and what is put next is stored if the put says so. -/
theorem hot_storage_is_accounted (calls : List Call) :
    (run blake3 time limit calls).size =
        ((run blake3 time limit calls).exprs.sum fun _ e => e.cachedSize) ∧
      (∀ k e, (run blake3 time limit calls).exprs.get? k = some e → e.size = .ok e.cachedSize) ∧
      (run blake3 time limit calls).size ≤ max limit 0 ∧
      (∀ k, k ∈ (run blake3 time limit calls).timestamps.keys ↔
        k ∈ (run blake3 time limit calls).exprs.keys) ∧
      ∀ e s', putExpr blake3 time limit e (run blake3 time limit calls) = (s', .ok true) →
        ∃ key, e.hash blake3 = .ok key ∧ s'.exprs.get? key = some e :=
  have h := accounted_run calls
  ⟨h.size, h.sized, h.limited, h.timestamps, fun _ _ => put_of_true⟩

theorem sample_put_is_stored : ∃ key, (HotExpr.bytes [7]).hash (fun x => x) = .ok key ∧
    (Dict.insert Dict.empty [2, 7] (HotExpr.bytes [7])).get? key = some (.bytes [7]) := by
  have hroom : ∀ kept (existingSize size : Int), existingSize = 0 → size = 1 →
      makeRoom 10 [2, 7] kept existingSize size (empty : HotStorage Nat) = empty := by
    rintro kept _ _ rfl rfl
    rw [makeRoom, if_pos (by decide)]
  have hput : putExpr (fun x => x) (fun n : Nat => n) 10 (.bytes [7]) empty =
      (⟨Dict.empty.insert [2, 7] (.bytes [7]), Dict.empty.insert [2, 7] 0, 1, 1⟩, .ok true) := by
    rw [putExpr, store]
    dsimp only [HotExpr.hash, HotExpr.size, terminalHash]
    rw [if_neg (by decide), hroom]
    · rfl
    · rfl
    · rfl
  exact (hot_storage_is_accounted (fun x => x) (fun n : Nat => n) 10 []).2.2.2.2 _ _ hput

/-- Below a negative limit nothing is stored, and the size 0 is above it. -/
theorem negative_limit_is_exceeded :
    ¬(run (fun x => x) (fun n => n) (-1) [.put .nil]).size ≤ -1 := by
  have hlimit : (-1 : Int) < (64 : Nat) := by decide
  have hrun : (run (fun x => x) (fun n => n) (-1) [.put .nil]).size = 0 := by
    change (store (fun x => x) (fun n : Nat => n) (-1) HotExpr.nil empty).1.size = 0
    rw [store]
    rfl
  rw [hrun]
  decide

end HotStorage

end Astreum

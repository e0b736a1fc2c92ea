import Mathlib.Data.List.Basic

namespace Astreum

section Bits

/-- What is left of a key behind these bits, where it starts with them. -/
def strip? : List Bool → List Bool → Option (List Bool)
  | [], key => some key
  | _ :: _, [] => none
  | b :: bits, c :: key => if b = c then strip? bits key else none

/-- Where two lists of bits part: the bits they share, and what is left of each. -/
def fork : List Bool → List Bool → List Bool × List Bool × List Bool
  | b :: bits, c :: key =>
    if b = c then
      let (shared, rest) := fork bits key
      (b :: shared, rest)
    else ([], b :: bits, c :: key)
  | bits, key => ([], bits, key)

variable {bits key rest shared left right : List Bool}

theorem strip?_eq_some : strip? bits key = some rest ↔ key = bits ++ rest := by
  induction bits generalizing key with
  | nil => simp [strip?]
  | cons b bits ih =>
    rcases key with _ | ⟨c, key⟩
    · simp [strip?]
    · by_cases h : b = c
      · simp [strip?, h, ih]
      · simp [strip?, h, Ne.symm h]

example : strip? [true] [true, false] = some [false] := by decide +kernel

@[simp] theorem strip?_append (bits rest : List Bool) : strip? bits (bits ++ rest) = some rest :=
  strip?_eq_some.mpr rfl

@[simp] theorem strip?_self (bits : List Bool) : strip? bits bits = some [] :=
  strip?_eq_some.mpr (List.append_nil bits).symm

theorem strip?_append_append (shared bits key : List Bool) :
    strip? (shared ++ bits) (shared ++ key) = strip? bits key := by
  induction shared with
  | nil => rfl
  | cons b shared ih => simpa [strip?] using ih

theorem strip?_eq_none : strip? bits key = none ↔ ¬bits <+: key := by
  constructor
  · rintro h ⟨rest, rfl⟩
    rw [strip?_append] at h
    cases h
  · intro h
    rcases hs : strip? bits key with _ | rest
    · rfl
    · exact absurd ⟨rest, (strip?_eq_some.mp hs).symm⟩ h

theorem fork_eq (h : fork bits key = (shared, left, right)) :
    bits = shared ++ left ∧ key = shared ++ right ∧
      ∀ b c left' right', left = b :: left' → right = c :: right' → b ≠ c := by
  induction bits generalizing key shared with
  | nil =>
    obtain ⟨rfl, rfl, rfl⟩ : [] = shared ∧ [] = left ∧ key = right := by simpa [fork] using h
    exact ⟨rfl, rfl, by rintro b c left' right' ⟨⟩⟩
  | cons b bits ih =>
    rcases key with _ | ⟨c, key⟩
    · obtain ⟨rfl, rfl, rfl⟩ : [] = shared ∧ b :: bits = left ∧ [] = right := by
        simpa [fork] using h
      exact ⟨rfl, rfl, by rintro b c left' right' - ⟨⟩⟩
    rw [fork] at h
    split at h
    · rename_i hbc
      rcases hf : fork bits key with ⟨shared', left', right'⟩
      simp only [hf, Prod.mk.injEq] at h
      obtain ⟨rfl, rfl, rfl⟩ := h
      obtain ⟨rfl, rfl, hne⟩ := ih hf
      exact ⟨rfl, by rw [hbc]; rfl, hne⟩
    · rename_i hbc
      simp only [Prod.mk.injEq] at h
      obtain ⟨rfl, rfl, rfl⟩ := h
      refine ⟨rfl, rfl, ?_⟩
      intro b' c' left' right' hl hr
      obtain ⟨rfl, -⟩ := List.cons.inj hl
      obtain ⟨rfl, -⟩ := List.cons.inj hr
      exact hbc

end Bits

/-- A map from lists of bits, with the bits that keys share on its nodes. -/
inductive Trie (α : Type) where
  | empty
  | node (bits : List Bool) (value : Option α) (zero one : Trie α)
  deriving DecidableEq

namespace Trie

variable {α : Type}

def leaf (bits : List Bool) (value : α) : Trie α := node bits (some value) empty empty

/-- A node over two tries, of which the bit chooses the place. -/
def branch (bits : List Bool) (value : Option α) (bit : Bool) (inside beside : Trie α) : Trie α :=
  if bit then node bits value beside inside else node bits value inside beside

def lookup : Trie α → List Bool → Option α
  | empty, _ => none
  | node bits value zero one, key =>
    match strip? bits key with
    | none => none
    | some [] => value
    | some (false :: tail) => zero.lookup tail
    | some (true :: tail) => one.lookup tail

/-- A node whose bits part from a key gives way to a branch over it and a leaf. -/
def split (bits : List Bool) (value : Option α) (zero one : Trie α) (key : List Bool) (v : α) :
    Trie α :=
  match fork bits key with
  | (shared, b :: left, _ :: right) =>
    branch shared none b (node left value zero one) (leaf right v)
  | _ => node bits value zero one

def insert : Trie α → List Bool → α → Trie α
  | empty, key, v => leaf key v
  | node bits value zero one, key, v =>
    match strip? bits key with
    | none => split bits value zero one key v
    | some [] => node bits (some v) zero one
    | some (false :: tail) => node bits value (zero.insert tail v) one
    | some (true :: tail) => node bits value zero (one.insert tail v)

/-- A key ends inside the bits of a node. -/
def Ends : Trie α → List Bool → Prop
  | empty, _ => False
  | node bits _ zero one, key =>
    match strip? bits key with
    | none => key <+: bits
    | some [] => False
    | some (false :: tail) => zero.Ends tail
    | some (true :: tail) => one.Ends tail

/-- The tries below a trie and itself, but for the empty ones. -/
def subtries : Trie α → List (Trie α)
  | empty => []
  | node bits value zero one => node bits value zero one :: (zero.subtries ++ one.subtries)

/-- The tries on the way to a key, with what is left of the key at each. -/
def path : Trie α → List Bool → List (Trie α × List Bool)
  | empty, _ => []
  | node bits value zero one, key =>
    (node bits value zero one, key) :: match strip? bits key with
      | some (false :: tail) => zero.path tail
      | some (true :: tail) => one.path tail
      | _ => []

/-- The value at the top of a trie. -/
def topValue : Trie α → Option α
  | empty => none
  | node _ value _ _ => value

/-- A key that does not end inside a node parts from its bits or goes through them. -/
theorem split_eq {bits key : List Bool} {value : Option α} {zero one : Trie α} {v : α}
    (hs : strip? bits key = none) (he : ¬(node bits value zero one).Ends key) :
    ∃ shared b left right, bits = shared ++ b :: left ∧ key = shared ++ (!b) :: right ∧
      fork bits key = (shared, b :: left, (!b) :: right) ∧
      split bits value zero one key v =
        branch shared none b (node left value zero one) (leaf right v) := by
  rcases hf : fork bits key with ⟨shared, left, right⟩
  obtain ⟨rfl, rfl, hne⟩ := fork_eq hf
  rcases left with _ | ⟨b, left⟩
  · rw [List.append_nil, strip?_append] at hs
    cases hs
  rcases right with _ | ⟨c, right⟩
  · rw [Ends, hs] at he
    exact absurd (by simp) he
  have hc : c = !b := by
    have := hne b c left right rfl rfl
    cases b <;> cases c <;> simp_all
  subst hc
  exact ⟨shared, b, left, right, rfl, rfl, rfl, by rw [split, hf]⟩

theorem lookup_leaf (bits k : List Bool) (v : α) :
    (leaf bits v).lookup k = if k = bits then some v else none := by
  rcases hs : strip? bits k with _ | ⟨_ | ⟨b, tail⟩⟩
  · have hk : k ≠ bits := by
      rintro rfl
      rw [strip?_self] at hs
      cases hs
    simp [leaf, lookup, hs, hk]
  · have hk : k = bits := (strip?_eq_some.mp hs).trans (List.append_nil bits)
    simp [leaf, lookup, hk]
  · have hk : k ≠ bits := by
      rintro rfl
      rw [strip?_self] at hs
      cases hs
    cases b <;> simp [leaf, lookup, hs, hk]

theorem lookup_branch (bits tail : List Bool) (value : Option α) (bit c : Bool)
    (inside beside : Trie α) :
    (branch bits value bit inside beside).lookup (bits ++ c :: tail) =
      if c = bit then inside.lookup tail else beside.lookup tail := by
  cases bit <;> cases c <;> simp [branch, lookup]

theorem lookup_node_append (bits tail : List Bool) (value : Option α) (b : Bool)
    (zero one : Trie α) : (node bits value zero one).lookup (bits ++ b :: tail) =
      if b then one.lookup tail else zero.lookup tail := by
  cases b <;> simp [lookup]

/-- A split keeps what the node held, beside the new value. -/
theorem lookup_split {bits key : List Bool} {value : Option α} {zero one : Trie α}
    (hs : strip? bits key = none) (he : ¬(node bits value zero one).Ends key) (v : α)
    (k : List Bool) : (split bits value zero one key v).lookup k =
      if k = key then some v else (node bits value zero one).lookup k := by
  obtain ⟨shared, b, left, right, rfl, rfl, -, hsplit⟩ := split_eq (v := v) hs he
  rw [hsplit]
  rcases hk : strip? shared k with _ | ⟨_ | ⟨c, tail⟩⟩
  · have hout : ¬shared <+: k := strip?_eq_none.mp hk
    have hne : k ≠ shared ++ (!b) :: right := fun h => hout ⟨_, h.symm⟩
    have hnone : strip? (shared ++ b :: left) k = none :=
      strip?_eq_none.mpr fun ⟨rest, h⟩ => hout ⟨b :: left ++ rest, by simpa using h⟩
    rw [if_neg hne]
    cases b <;> simp [branch, lookup, hk, hnone]
  · obtain rfl := (strip?_eq_some.mp hk).trans (List.append_nil shared)
    have hnone : strip? (k ++ b :: left) k = none := strip?_eq_none.mpr fun ⟨rest, h⟩ => by
      have := congrArg List.length h
      simp at this
    have hne : k ≠ k ++ (!b) :: right := fun h => by
      have := congrArg List.length h
      simp at this
    rw [if_neg hne]
    cases b <;> simp [branch, lookup, hnone]
  · obtain rfl := strip?_eq_some.mp hk
    rw [lookup_branch]
    by_cases hc : c = b
    · subst hc
      have hne : shared ++ c :: tail ≠ shared ++ (!c) :: right := by
        intro h
        cases c <;> simp at h
      rw [if_pos rfl, if_neg hne, lookup, lookup, strip?_append_append, strip?, if_pos rfl]
    · have hb : c = !b := by cases b <;> cases c <;> simp_all
      subst hb
      have hnone : strip? (shared ++ b :: left) (shared ++ (!b) :: tail) = none := by
        rw [strip?_append_append, strip?, if_neg (by cases b <;> simp)]
      rw [if_neg hc, lookup_leaf, lookup, hnone]
      simp

/-- An insertion changes the value at its key and at no other. -/
theorem lookup_insert {t : Trie α} {key : List Bool} (h : ¬t.Ends key) (v : α) (k : List Bool) :
    (t.insert key v).lookup k = if k = key then some v else t.lookup k := by
  induction t generalizing key k with
  | empty => exact lookup_leaf key k v
  | node bits value zero one ihz iho =>
    rcases hs : strip? bits key with _ | ⟨_ | ⟨b, tail⟩⟩
    · rw [insert, hs]
      exact lookup_split hs h v k
    · obtain rfl := (strip?_eq_some.mp hs).trans (List.append_nil bits)
      rw [insert, hs]
      rcases hk : strip? key k with _ | ⟨_ | ⟨c, rest⟩⟩
      · have hne : k ≠ key := by
          rintro rfl
          rw [strip?_self] at hk
          cases hk
        simp [lookup, hk, hne]
      · have heq : k = key := (strip?_eq_some.mp hk).trans (List.append_nil key)
        simp [lookup, heq]
      · have hne : k ≠ key := by
          rintro rfl
          rw [strip?_self] at hk
          cases hk
        cases c <;> simp [lookup, hk, hne]
    · obtain rfl := strip?_eq_some.mp hs
      rw [Ends, hs] at h
      rcases hk : strip? bits k with _ | ⟨_ | ⟨c, rest⟩⟩
      · have hne : k ≠ bits ++ b :: tail := fun heq => by
          rw [heq, strip?_append] at hk
          cases hk
        cases b <;> simp [insert, lookup, hk, hne]
      · have hne : k ≠ bits ++ b :: tail := fun heq => by
          rw [heq, strip?_append] at hk
          cases hk
        cases b <;> simp [insert, lookup, hk, hne]
      · obtain rfl := strip?_eq_some.mp hk
        cases b <;> cases c <;> simp [insert, lookup_node_append]
        · exact ihz h rest
        · exact iho h rest

section Normal

/-- Every key of the trie has `n` bits, and no node could be left out. -/
def Normal : Trie α → Nat → Prop
  | empty, _ => True
  | node bits value zero one, n =>
    (bits.length = n ∧ value.isSome ∧ zero = empty ∧ one = empty) ∨
      (value = none ∧ zero ≠ empty ∧ one ≠ empty ∧
        ∃ m, n = bits.length + 1 + m ∧ zero.Normal m ∧ one.Normal m)

theorem insert_ne_empty (t : Trie α) (key : List Bool) (v : α) : t.insert key v ≠ empty := by
  cases t with
  | empty => nofun
  | node bits value zero one =>
    rw [insert]
    split
    · rw [split]
      split
      · rw [branch]
        split <;> nofun
      · nofun
    all_goals nofun

theorem normal_branch (bits : List Bool) (bit : Bool) {inside beside : Trie α} {m : Nat}
    (hi : inside.Normal m) (hb : beside.Normal m) (hine : inside ≠ empty) (hbne : beside ≠ empty) :
    (branch bits none bit inside beside).Normal (bits.length + 1 + m) := by
  cases bit
  · exact .inr ⟨rfl, hine, hbne, m, rfl, hi, hb⟩
  · exact .inr ⟨rfl, hbne, hine, m, rfl, hb, hi⟩

/-- Keys of one length fit in, and the trie stays normal. -/
theorem Normal.insert {t : Trie α} {key : List Bool} (h : t.Normal key.length) (v : α) :
    ¬t.Ends key ∧ (t.insert key v).Normal key.length := by
  induction t generalizing key with
  | empty => exact ⟨id, .inl ⟨rfl, rfl, rfl, rfl⟩⟩
  | node bits value zero one ihz iho =>
    rcases hs : strip? bits key with _ | ⟨_ | ⟨b, tail⟩⟩
    · have hends : ¬(node bits value zero one).Ends key := by
        rw [Ends, hs]
        intro hpre
        have hle : bits.length ≤ key.length := by
          rcases h with ⟨hlen, -⟩ | ⟨-, -, -, m, hlen, -⟩ <;> omega
        have heq : key = bits := hpre.eq_of_length_le hle
        rw [heq, strip?_self] at hs
        cases hs
      refine ⟨hends, ?_⟩
      obtain ⟨shared, b, left, right, rfl, rfl, -, hsplit⟩ := split_eq (v := v) hs hends
      rw [Trie.insert, hs]
      simp only [hsplit]
      simp only [List.length_append, List.length_cons] at h ⊢
      have hinside : (node left value zero one).Normal right.length := by
        rcases h with ⟨hlen, hrest⟩ | ⟨hv, hz, ho, m, hlen, hrest⟩
        · simp only [List.length_append, List.length_cons] at hlen
          exact .inl ⟨by omega, hrest⟩
        · simp only [List.length_append, List.length_cons] at hlen
          exact .inr ⟨hv, hz, ho, m, by omega, hrest⟩
      have hbeside : (leaf right v).Normal right.length := .inl ⟨rfl, rfl, rfl, rfl⟩
      have hbranch := normal_branch shared b hinside hbeside nofun nofun
      rwa [show shared.length + (right.length + 1) = shared.length + 1 + right.length by omega]
    · obtain rfl := (strip?_eq_some.mp hs).trans (List.append_nil bits)
      refine ⟨by rw [Ends, hs]; exact id, ?_⟩
      rw [Trie.insert, hs]
      rcases h with ⟨hlen, -, hrest⟩ | ⟨-, -, -, m, hlen, -⟩
      · exact .inl ⟨hlen, rfl, hrest⟩
      · omega
    · obtain rfl := strip?_eq_some.mp hs
      rw [Trie.insert, Ends, hs]
      simp only [List.length_append, List.length_cons] at h ⊢
      rcases h with ⟨hlen, -⟩ | ⟨hv, hz, ho, m, hlen, hzero, hone⟩
      · omega
      · have hm : m = tail.length := by omega
        subst hm
        cases b
        · obtain ⟨hends, hnormal⟩ := ihz hzero
          exact ⟨hends, .inr ⟨hv, insert_ne_empty _ _ _, ho, tail.length, hlen, hnormal, hone⟩⟩
        · obtain ⟨hends, hnormal⟩ := iho hone
          exact ⟨hends, .inr ⟨hv, hz, insert_ne_empty _ _ _, tail.length, hlen, hzero, hnormal⟩⟩

theorem Normal.exists_key {t : Trie α} {n : Nat} (h : t.Normal n) (hne : t ≠ empty) :
    ∃ key, (t.lookup key).isSome := by
  induction t generalizing n with
  | empty => exact absurd rfl hne
  | node bits value zero one ihz iho =>
    rcases h with ⟨-, hv, -⟩ | ⟨-, hz, -, m, -, hzero, -⟩
    · exact ⟨bits, by simpa [lookup] using hv⟩
    · obtain ⟨key, hkey⟩ := ihz hzero hz
      exact ⟨bits ++ false :: key, by simpa [lookup_node_append] using hkey⟩

theorem prefix_of_lookup {bits key : List Bool} {value : Option α} {zero one : Trie α}
    (h : ((node bits value zero one).lookup key).isSome) : bits <+: key := by
  by_contra hcon
  rw [lookup, strip?_eq_none.mpr hcon] at h
  cases h

/-- What two keys start with that part behind `bits` is in `bits`. -/
theorem prefix_of_fork {short bits left right : List Bool} (hl : short <+: bits ++ false :: left)
    (hr : short <+: bits ++ true :: right) : short <+: bits := by
  induction bits generalizing short with
  | nil =>
    rcases short with _ | ⟨b, short⟩
    · exact List.nil_prefix
    · have h₁ := (List.cons_prefix_cons.mp hl).1
      have h₂ := (List.cons_prefix_cons.mp hr).1
      exact absurd (h₁.symm.trans h₂) (by decide)
  | cons c bits ih =>
    rcases short with _ | ⟨b, short⟩
    · exact List.nil_prefix
    · obtain ⟨rfl, hl'⟩ := List.cons_prefix_cons.mp hl
      exact List.cons_prefix_cons.mpr ⟨rfl, ih hl' (List.cons_prefix_cons.mp hr).2⟩

/-- The bits of a branch are in those of every key on both sides. -/
theorem prefix_of_branch {bits : List Bool} {value : Option α} {zero one t : Trie α} {m : Nat}
    (hz : zero ≠ empty) (ho : one ≠ empty) (hzero : zero.Normal m) (hone : one.Normal m)
    {bits' : List Bool} {value' : Option α} {zero' one' : Trie α} (ht : t = node bits' value' zero' one')
    (h : ∀ key, (node bits value zero one).lookup key = t.lookup key) : bits' <+: bits := by
  subst ht
  obtain ⟨left, hleft⟩ := hzero.exists_key hz
  obtain ⟨right, hright⟩ := hone.exists_key ho
  have hl : bits' <+: bits ++ false :: left :=
    prefix_of_lookup (by rw [← h, lookup_node_append]; exact hleft)
  have hr : bits' <+: bits ++ true :: right :=
    prefix_of_lookup (by rw [← h, lookup_node_append]; exact hright)
  exact prefix_of_fork hl hr

/-- A normal trie is told by its values. -/
theorem Normal.ext {t t' : Trie α} {n : Nat} (ht : t.Normal n) (ht' : t'.Normal n)
    (h : ∀ key, t.lookup key = t'.lookup key) : t = t' := by
  induction t generalizing t' n with
  | empty =>
    by_contra hne
    obtain ⟨key, hkey⟩ := ht'.exists_key (Ne.symm hne)
    rw [← h] at hkey
    cases hkey
  | node bits value zero one ihz iho =>
    rcases t' with _ | ⟨bits', value', zero', one'⟩
    · obtain ⟨key, hkey⟩ := ht.exists_key nofun
      rw [h] at hkey
      cases hkey
    rcases ht with ⟨hlen, hv, rfl, rfl⟩ | ⟨rfl, hz, ho, m, hlen, hzero, hone⟩
    · rcases ht' with ⟨hlen', hv', rfl, rfl⟩ | ⟨rfl, hz', ho', m', hlen', hzero', hone'⟩
      · obtain ⟨v, rfl⟩ := Option.isSome_iff_exists.mp hv
        obtain ⟨v', rfl⟩ := Option.isSome_iff_exists.mp hv'
        have hkey := h bits
        rw [show node bits (some v) empty empty = leaf bits v from rfl, lookup_leaf, if_pos rfl,
          show node bits' (some v') empty empty = leaf bits' v' from rfl, lookup_leaf] at hkey
        split at hkey
        · rename_i heq
          rw [heq, Option.some.inj hkey]
        · cases hkey
      · have hpre := prefix_of_branch hz' ho' hzero' hone' rfl fun key => (h key).symm
        have := hpre.length_le
        omega
    · have hpre := prefix_of_branch hz ho hzero hone rfl h
      rcases ht' with ⟨hlen', -⟩ | ⟨rfl, hz', ho', m', hlen', hzero', hone'⟩
      · have := hpre.length_le
        omega
      · have hpre' := prefix_of_branch hz' ho' hzero' hone' rfl fun key => (h key).symm
        obtain rfl := hpre.eq_of_length_le hpre'.length_le
        obtain rfl : m = m' := by omega
        have hzeros := ihz hzero hzero' fun key => by
          simpa [lookup_node_append] using h (bits' ++ false :: key)
        have hones := iho hone hone' fun key => by
          simpa [lookup_node_append] using h (bits' ++ true :: key)
        rw [hzeros, hones]

end Normal

end Trie

end Astreum

import Astreum.HashTree

namespace Astreum

namespace HashTree

variable {α : Type} (f : α → α → α)

/-- The pairs that are joined in a level. -/
def joined : List α → List (α × α)
  | a :: b :: l => (a, b) :: joined l
  | _ => []

/-- The pairs that are joined in all levels. -/
def joins : Nat → List α → List (α × α)
  | 0, _ => []
  | n + 1, l => if l.length ≤ 1 then [] else joined l ++ joins n (pairUp f l)

/-- The pairs that are joined on the way up from an entry. -/
def climbed : Nat → Nat → Nat → α → List α → List (α × α)
  | 0, _, _, _, _ => []
  | n + 1, i, last, r, proof =>
    if last = 0 then []
    else if i % 2 = 1 then match proof with
      | [] => []
      | s :: proof => (s, r) :: climbed n (i / 2) (last / 2) (f s r) proof
    else if i < last then match proof with
      | [] => []
      | s :: proof => (r, s) :: climbed n (i / 2) (last / 2) (f r s) proof
    else climbed n (i / 2) (last / 2) r proof

/-- The function joins no pair of the one list and another pair of the other to the same entry. -/
def Separates (ps qs : List (α × α)) : Prop :=
  ∀ p ∈ ps, ∀ q ∈ qs, f p.1 p.2 = f q.1 q.2 → p = q

variable {f}

theorem Separates.mono {ps ps' qs qs' : List (α × α)} (h : Separates f ps qs) (hps : ps' ⊆ ps)
    (hqs : qs' ⊆ qs) : Separates f ps' qs' :=
  fun p hp q hq => h p (hps hp) q (hqs hq)

/-- The pair that two neighbours are joined in. -/
theorem mem_joined {l : List α} {k : Nat} {a b : α} (ha : l[2 * k]? = some a)
    (hb : l[2 * k + 1]? = some b) : (a, b) ∈ joined l := by
  induction l using joined.induct generalizing k with
  | case1 x y l ih =>
    cases k with
    | zero =>
      cases ha
      cases hb
      exact List.mem_cons_self
    | succ k => exact List.mem_cons_of_mem _ (ih ha hb)
  | case2 l hl =>
    rcases l with - | ⟨x, - | ⟨y, l⟩⟩
    · cases ha
    · cases k with
      | zero => cases hb
      | succ k => cases hb
    · exact absurd rfl (hl x y l)

theorem joins_cons {n : Nat} {l : List α} (hl : 1 < l.length) :
    joins f (n + 1) l = joined l ++ joins f n (pairUp f l) := by
  rw [joins, if_neg (by omega)]

/-- A single entry is the root, and needs no proof. -/
theorem climb_sound_single {m : Nat} {l : List α} {i : Nat} {r root : α} {proof : List α}
    (hi : i < l.length) (hl : l.length ≤ 1) (hm : l.length ≤ m) (hroot : rootOf [l] = some root)
    (hclimb : climb f m i (l.length - 1) r proof = some ([], root)) :
    l[i]? = some r ∧ proof = [] := by
  obtain ⟨m, rfl⟩ : ∃ m', m = m' + 1 := ⟨m - 1, by omega⟩
  have hlast : l.length - 1 = 0 := by omega
  rw [hlast, climb_root] at hclimb
  obtain ⟨rfl, rfl⟩ := Prod.mk.inj (Option.some.inj hclimb)
  obtain ⟨x, rfl⟩ := List.length_eq_one_iff.mp (by omega : l.length = 1)
  have hi0 : i = 0 := by
    rw [List.length_singleton] at hi
    omega
  subst hi0
  exact ⟨hroot, rfl⟩

/-- A way up that ends at the root starts at the entry of the tree, with its siblings. -/
theorem climb_sound (n m : Nat) {l : List α} {i : Nat} {r root : α} {proof : List α}
    (hi : i < l.length) (hn : l.length ≤ n + 1) (hm : l.length ≤ m)
    (hroot : rootOf (levelsFrom f n l) = some root)
    (hclimb : climb f m i (l.length - 1) r proof = some ([], root))
    (hsep : Separates f (joins f n l) (climbed f m i (l.length - 1) r proof)) :
    l[i]? = some r ∧ proof = proofOf (levelsFrom f n l) i := by
  induction n generalizing l i r m proof with
  | zero => exact climb_sound_single hi hn hm hroot hclimb
  | succ n ih =>
    by_cases hl : l.length ≤ 1
    · rw [levelsFrom, if_pos hl] at hroot ⊢
      exact climb_sound_single hi hl hm hroot hclimb
    obtain ⟨m, rfl⟩ : ∃ m', m = m' + 1 := ⟨m - 1, by omega⟩
    have hlast : l.length - 1 ≠ 0 := by omega
    have hlen := length_pairUp (f := f) l
    have hhalf : (l.length - 1) / 2 = (pairUp f l).length - 1 := by omega
    have hne := levelsFrom_ne_nil (f := f) n (pairUp f l)
    rw [levelsFrom, if_neg hl, rootOf_cons hne] at hroot
    rw [joins_cons (by omega)] at hsep
    rw [levelsFrom, if_neg hl, proofOf_cons hne]
    -- what the level above gives for the rest of the way
    have hrest : ∀ {r' : α} {rest : List α},
        climb f m (i / 2) ((l.length - 1) / 2) r' rest = some ([], root) →
        climbed f m (i / 2) ((l.length - 1) / 2) r' rest
          ⊆ climbed f (m + 1) i (l.length - 1) r proof →
        (pairUp f l)[i / 2]? = some r' ∧
          rest = proofOf (levelsFrom f n (pairUp f l)) (i / 2) := by
      intro r' rest hclimb' hsub
      rw [hhalf] at hclimb' hsub
      exact ih m (by omega) (by omega) (by omega) hroot hclimb'
        (hsep.mono (List.subset_append_right _ _) hsub)
    by_cases hodd : i % 2 = 1
    · obtain ⟨a, ha⟩ : ∃ a, l[i - 1]? = some a :=
        ⟨_, List.getElem?_eq_getElem (by omega)⟩
      obtain ⟨b, hb⟩ : ∃ b, l[i]? = some b := ⟨_, List.getElem?_eq_getElem hi⟩
      have hleft : 2 * (i / 2) = i - 1 := by omega
      have hright : 2 * (i / 2) + 1 = i := by omega
      rcases proof with - | ⟨s, proof⟩
      · simp [climb, hlast, hodd] at hclimb
      rw [climb_odd hlast hodd] at hclimb
      have hway : climbed f (m + 1) i (l.length - 1) r (s :: proof) =
          (s, r) :: climbed f m (i / 2) ((l.length - 1) / 2) (f s r) proof := by
        simp [climbed, hlast, hodd]
      obtain ⟨hup, hproof⟩ := hrest hclimb (by rw [hway]; exact List.subset_cons_self _ _)
      rw [getElem?_pairUp, hleft, show i - 1 + 1 = i by omega, ha, hb] at hup
      have hpair := hsep (a, b) (List.mem_append_left _
        (mem_joined (k := i / 2) (by rw [hleft]; exact ha) (by rw [hright]; exact hb)))
        (s, r) (by rw [hway]; exact List.mem_cons_self) (Option.some.inj hup)
      obtain ⟨rfl, rfl⟩ := Prod.mk.inj hpair
      refine ⟨hb, ?_⟩
      rw [sibling, if_pos hodd, ha, hproof]
      rfl
    have hleft : 2 * (i / 2) = i := by omega
    obtain ⟨a, ha⟩ : ∃ a, l[i]? = some a := ⟨_, List.getElem?_eq_getElem hi⟩
    by_cases hbeside : i < l.length - 1
    · obtain ⟨b, hb⟩ : ∃ b, l[i + 1]? = some b :=
        ⟨_, List.getElem?_eq_getElem (by omega)⟩
      rcases proof with - | ⟨s, proof⟩
      · simp [climb, hlast, hodd, hbeside] at hclimb
      rw [climb_even hlast hodd hbeside] at hclimb
      have hway : climbed f (m + 1) i (l.length - 1) r (s :: proof) =
          (r, s) :: climbed f m (i / 2) ((l.length - 1) / 2) (f r s) proof := by
        simp [climbed, hlast, hodd, hbeside]
      obtain ⟨hup, hproof⟩ := hrest hclimb (by rw [hway]; exact List.subset_cons_self _ _)
      rw [getElem?_pairUp, hleft, ha, hb] at hup
      have hpair := hsep (a, b) (List.mem_append_left _
        (mem_joined (k := i / 2) (by rw [hleft]; exact ha) (by rw [hleft]; exact hb)))
        (r, s) (by rw [hway]; exact List.mem_cons_self) (Option.some.inj hup)
      obtain ⟨rfl, rfl⟩ := Prod.mk.inj hpair
      refine ⟨ha, ?_⟩
      rw [sibling, if_neg hodd, hb, hproof]
      rfl
    · have hb : l[i + 1]? = none := List.getElem?_eq_none (by omega)
      rw [climb_up hlast hodd hbeside] at hclimb
      have hway : climbed f (m + 1) i (l.length - 1) r proof =
          climbed f m (i / 2) ((l.length - 1) / 2) r proof := by
        simp [climbed, hlast, hodd, hbeside]
      obtain ⟨hup, hproof⟩ := hrest hclimb (by rw [hway]; exact List.Subset.refl _)
      rw [getElem?_pairUp, hleft, ha, hb] at hup
      refine ⟨ha.trans hup, ?_⟩
      rw [sibling, if_neg hodd, hb]
      exact hproof

/-- A level is known by the level above it. -/
theorem pairUp_inj {l l' : List α} (hlength : l.length = l'.length)
    (hsep : Separates f (joined l) (joined l')) (h : pairUp f l = pairUp f l') : l = l' := by
  induction l using pairUp.induct generalizing l' with
  | case1 a b l ih =>
    obtain ⟨a', b', l', rfl⟩ : ∃ a' b' l₁, l' = a' :: b' :: l₁ := by
      rcases l' with - | ⟨a', - | ⟨b', l'⟩⟩
      · cases hlength
      · cases hlength
      · exact ⟨a', b', l', rfl⟩
    obtain ⟨hfirst, hrest⟩ := List.cons.inj h
    obtain ⟨rfl, rfl⟩ := Prod.mk.inj
      (hsep (a, b) List.mem_cons_self (a', b') List.mem_cons_self hfirst)
    rw [ih (by simpa using hlength)
      (hsep.mono (List.subset_cons_self _ _) (List.subset_cons_self _ _)) hrest]
  | case2 l hl =>
    rcases l with - | ⟨a, - | ⟨b, l⟩⟩
    · exact (List.length_eq_zero_iff.mp hlength.symm).symm
    · obtain ⟨a', rfl⟩ := List.length_eq_one_iff.mp hlength.symm
      exact h
    · exact absurd rfl (hl a b l)

/-- A list is known by its root and its length. -/
theorem rootOf_inj (n : Nat) {l l' : List α} (hn : l.length ≤ n + 1)
    (hlength : l.length = l'.length) (hne : l ≠ [])
    (hsep : Separates f (joins f n l) (joins f n l'))
    (h : rootOf (levelsFrom f n l) = rootOf (levelsFrom f n l')) : l = l' := by
  have hsingle : ∀ {l l' : List α}, l.length ≤ 1 → l.length = l'.length → l ≠ [] →
      rootOf [l] = rootOf [l'] → l = l' := by
    intro l l' hl hlength hne h
    have hpos := List.length_pos_iff.mpr hne
    obtain ⟨a, rfl⟩ := List.length_eq_one_iff.mp (by omega : l.length = 1)
    obtain ⟨a', rfl⟩ := List.length_eq_one_iff.mp hlength.symm
    exact congrArg (fun x => [x]) (Option.some.inj h)
  induction n generalizing l l' with
  | zero => exact hsingle hn hlength hne h
  | succ n ih =>
    by_cases hl : l.length ≤ 1
    · rw [levelsFrom, if_pos hl, levelsFrom, if_pos (by omega)] at h
      exact hsingle hl hlength hne h
    · have hlen := length_pairUp (f := f) l
      have hlen' := length_pairUp (f := f) l'
      rw [levelsFrom, if_neg hl, levelsFrom, if_neg (by omega), rootOf_cons (levelsFrom_ne_nil _ _),
        rootOf_cons (levelsFrom_ne_nil _ _)] at h
      rw [joins_cons (by omega), joins_cons (by omega)] at hsep
      refine pairUp_inj hlength
        (hsep.mono (List.subset_append_left _ _) (List.subset_append_left _ _)) ?_
      refine ih (by omega) (by omega) (fun hnil => ?_)
        (hsep.mono (List.subset_append_right _ _) (List.subset_append_right _ _)) h
      rw [hnil] at hlen
      simp only [List.length_nil] at hlen
      omega

variable {P : α → Prop}

theorem forall_joined {l : List α} (hl : ∀ a ∈ l, P a) :
    ∀ p ∈ joined l, P p.1 ∧ P p.2 := by
  induction l using joined.induct with
  | case1 a b l ih =>
    intro p hp
    rcases List.mem_cons.mp hp with rfl | hp
    · exact ⟨hl a (by simp), hl b (by simp)⟩
    · exact ih (fun x hx => hl x (by simp [hx])) p hp
  | case2 l hshort =>
    intro p hp
    rw [joined] at hp
    · cases hp
    · exact hshort

/-- What holds of the leaves and of every joined entry holds of what is joined. -/
theorem forall_joins (hf : ∀ a b, P (f a b)) (n : Nat) {l : List α} (hl : ∀ a ∈ l, P a) :
    ∀ p ∈ joins f n l, P p.1 ∧ P p.2 := by
  induction n generalizing l with
  | zero => exact fun p hp => absurd hp List.not_mem_nil
  | succ n ih =>
    intro p hp
    rw [joins] at hp
    split at hp
    · cases hp
    · rcases List.mem_append.mp hp with hp | hp
      · exact forall_joined hl p hp
      · exact ih (forall_pairUp hf hl) p hp

theorem forall_climbed (hf : ∀ a b, P (f a b)) (n i last : Nat) {r : α} {proof : List α}
    (hr : P r)
    (hproof : ∀ s ∈ proof, P s) : ∀ p ∈ climbed f n i last r proof, P p.1 ∧ P p.2 := by
  induction n generalizing i last r proof with
  | zero => exact fun p hp => absurd hp List.not_mem_nil
  | succ n ih =>
    intro p hp
    rw [climbed.eq_def] at hp
    dsimp only at hp
    split at hp
    · cases hp
    split at hp
    · rcases proof with - | ⟨s, proof⟩
      · cases hp
      · have hs := hproof s List.mem_cons_self
        rcases List.mem_cons.mp hp with rfl | hp
        · exact ⟨hs, hr⟩
        · exact ih _ _ (hf s r) (fun x hx => hproof x (List.mem_cons_of_mem _ hx)) p hp
    split at hp
    · rcases proof with - | ⟨s, proof⟩
      · cases hp
      · have hs := hproof s List.mem_cons_self
        rcases List.mem_cons.mp hp with rfl | hp
        · exact ⟨hr, hs⟩
        · exact ih _ _ (hf r s) (fun x hx => hproof x (List.mem_cons_of_mem _ hx)) p hp
    · exact ih _ _ hr hproof p hp

end HashTree

end Astreum

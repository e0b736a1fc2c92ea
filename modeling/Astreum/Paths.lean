import Mathlib.Data.List.Nodup
import Mathlib.Data.List.Perm.Subperm

namespace Paths

variable {α β κ : Type} (children : α → List (β × α))

/-- What a path of branches leads to. -/
inductive Leads : α → List β → α → Prop
  | here (x : α) : Leads x [] x
  | down {x y z : α} {b : β} {path : List β} (hy : (b, y) ∈ children x) (hz : Leads y path z) :
      Leads x (b :: path) z

/-- All that a start leads to, each path once. -/
structure Order (start : α) (order : List (List β × α)) : Prop where
  once : (order.map Prod.fst).Nodup
  all : ∀ p, p ∈ order ↔ Leads children start p.1 p.2

/-- No two paths lead to selected nodes of one key. -/
def Unshared (key : α → κ) (selected : α → Bool) (start : α) : Prop :=
  ∀ p q y z, Leads children start p y → Leads children start q z → selected y = true →
    selected z = true → key y = key z → p = q

variable {children} {start x y z : α}

theorem leads_nil : Leads children x [] y ↔ y = x := by
  constructor
  · intro h
    cases h
    rfl
  · rintro rfl
    exact .here y

theorem leads_cons {b : β} {path : List β} :
    Leads children x (b :: path) z ↔ ∃ y, (b, y) ∈ children x ∧ Leads children y path z := by
  constructor
  · intro h
    cases h with
    | down hy hz => exact ⟨_, hy, hz⟩
  · rintro ⟨y, hy, hz⟩
    exact .down hy hz

theorem Leads.append {path path' : List β} (h : Leads children x path y)
    (h' : Leads children y path' z) : Leads children x (path ++ path') z := by
  induction h with
  | here => exact h'
  | down hy _ ih => exact .down hy (ih h')

/-- The first branches of a path lead to a node from which the others go on. -/
theorem Leads.split {path path' : List β} (h : Leads children x (path ++ path') z) :
    ∃ y, Leads children x path y ∧ Leads children y path' z := by
  induction path generalizing x with
  | nil => exact ⟨x, .here x, h⟩
  | cons b path ih =>
    obtain ⟨x', hx', hrest⟩ := leads_cons.mp h
    obtain ⟨y, hy, hz⟩ := ih hrest
    exact ⟨y, .down hx' hy, hz⟩

theorem Leads.mono {children' : α → List (β × α)} (hsub : ∀ x, children x ⊆ children' x)
    {path : List β} (h : Leads children x path y) : Leads children' x path y := by
  induction h with
  | here => exact .here _
  | down hy _ ih => exact .down (hsub _ hy) ih

theorem Unshared.mono {children' : α → List (β × α)} (hsub : ∀ x, children x ⊆ children' x)
    {key : α → κ} {selected : α → Bool} (h : Unshared children' key selected start) :
    Unshared children key selected start :=
  fun p q y z hy hz => h p q y z (hy.mono hsub) (hz.mono hsub)

section Orders

variable {order : List (List β × α)}

theorem Order.perm {order' : List (List β × α)} (h : Order children start order)
    (hperm : order.Perm order') : Order children start order' where
  once := (hperm.map Prod.fst).nodup_iff.mp h.once
  all p := hperm.mem_iff.symm.trans (h.all p)

/-- Different paths to nodes of a list are all that matters for its keys. -/
theorem nodup_keys_iff (honce : (order.map Prod.fst).Nodup) (key : α → κ) (selected : α → Bool) :
    (((order.map Prod.snd).filter selected).map key).Nodup ↔
      ∀ p ∈ order, ∀ q ∈ order, selected p.2 = true → selected q.2 = true →
        key p.2 = key q.2 → p.1 = q.1 := by
  have hnodup : (order.filter (selected ∘ Prod.snd)).Nodup :=
    (List.Nodup.of_map Prod.fst honce).filter _
  rw [List.filter_map, List.map_map, List.nodup_map_iff_inj_on hnodup]
  simp only [List.mem_filter, Function.comp_apply]
  constructor
  · intro h p hp q hq hselp hselq hkey
    exact congrArg Prod.fst (h p ⟨hp, hselp⟩ q ⟨hq, hselq⟩ hkey)
  · rintro h p ⟨hp, hselp⟩ q ⟨hq, hselq⟩ hkey
    exact List.inj_on_of_nodup_map honce hp hq (h p hp q hq hselp hselq hkey)

/-- The keys of all nodes differ just if no two paths lead to one key. -/
theorem Order.nodup_keys_iff (h : Order children start order) (key : α → κ)
    (selected : α → Bool) :
    (((order.map Prod.snd).filter selected).map key).Nodup ↔
      Unshared children key selected start := by
  rw [Paths.nodup_keys_iff h.once]
  constructor
  · intro hall p q y z hy hz
    exact hall (p, y) ((h.all (p, y)).mpr hy) (q, z) ((h.all (q, z)).mpr hz)
  · intro hunshared p hp q hq
    exact hunshared p.1 q.1 p.2 q.2 ((h.all p).mp hp) ((h.all q).mp hq)

theorem Order.leaf (h : children x = []) : Order children x [([], x)] where
  once := List.nodup_singleton _
  all p := by
    rcases p with ⟨path, z⟩
    cases path with
    | nil => simp [leads_nil]
    | cons b path => simp [leads_cons, h]

/-- A node comes with all that its children lead to. -/
theorem Order.node (sub : β × α → List (List β × α))
    (hlabels : ((children x).map Prod.fst).Nodup)
    (hsub : ∀ c ∈ children x, Order children c.2 (sub c)) :
    Order children x
      (([], x) :: (children x).flatMap fun c => (sub c).map fun p => (c.1 :: p.1, p.2)) where
  once := by
    rw [List.map_cons, List.map_flatMap, List.nodup_cons]
    constructor
    · intro hin
      obtain ⟨c, -, hin⟩ := List.mem_flatMap.mp hin
      obtain ⟨p', hp', hnil⟩ := List.mem_map.mp hin
      obtain ⟨p, -, rfl⟩ := List.mem_map.mp hp'
      cases hnil
    have hpaths : ∀ c : β × α, ((sub c).map fun p => (c.1 :: p.1, p.2)).map Prod.fst =
        ((sub c).map Prod.fst).map (c.1 :: ·) := by
      intro c
      rw [List.map_map, List.map_map]
      rfl
    simp only [hpaths]
    refine List.nodup_flatMap.mpr ⟨fun c hc => ?_, ?_⟩
    · exact (hsub c hc).once.map (List.cons_injective)
    · refine (List.pairwise_map.mp hlabels).imp fun {c c'} hne => ?_
      intro path hin hin'
      obtain ⟨p, -, rfl⟩ := List.mem_map.mp hin
      obtain ⟨p', -, heq⟩ := List.mem_map.mp hin'
      exact hne (List.cons.inj heq).1.symm
  all p := by
    rcases p with ⟨path, z⟩
    cases path with
    | nil =>
      rw [List.mem_cons, leads_nil]
      constructor
      · rintro (heq | hin)
        · exact congrArg Prod.snd heq
        · obtain ⟨c, -, hin⟩ := List.mem_flatMap.mp hin
          obtain ⟨p, -, heq⟩ := List.mem_map.mp hin
          cases heq
      · rintro rfl
        exact .inl rfl
    | cons b path =>
      rw [List.mem_cons, leads_cons]
      constructor
      · rintro (heq | hin)
        · cases heq
        · obtain ⟨c, hc, hin⟩ := List.mem_flatMap.mp hin
          obtain ⟨p, hp, heq⟩ := List.mem_map.mp hin
          cases heq
          exact ⟨c.2, hc, ((hsub c hc).all p).mp hp⟩
      · rintro ⟨y, hy, hz⟩
        refine .inr (List.mem_flatMap.mpr ⟨(b, y), hy, List.mem_map.mpr ⟨(path, z), ?_, rfl⟩⟩)
        exact ((hsub (b, y) hy).all (path, z)).mpr hz

end Orders

section Stack

variable (children)

/-- What a node adds to the stack, each node with the path to it. -/
def branches (p : List β × α) : List (List β × α) :=
  (children p.2).map fun c => (p.1 ++ [c.1], c.2)

/-- The nodes taken off a stack one after the other. -/
def visits : Nat → List (List β × α) → List (List β × α)
  | 0, _ => []
  | _ + 1, [] => []
  | n + 1, p :: stack => p :: visits n (branches children p ++ stack)

/-- Where a walk from a start stands: what it has visited, and the stack. -/
structure Explored (start : α) (visited stack : List (List β × α)) : Prop where
  led : ∀ p ∈ visited ++ stack, Leads children start p.1 p.2
  once : (visited.map Prod.fst).Nodup
  apart : stack.Pairwise fun p q => ¬p.1 <+: q.1 ∧ ¬q.1 <+: p.1
  ahead : ∀ v ∈ visited, ∀ p ∈ stack, ¬p.1 <+: v.1
  all : ∀ path y, Leads children start path y → (path, y) ∈ visited ∨
    ∃ p ∈ stack, ∃ rest, path = p.1 ++ rest ∧ Leads children p.2 rest y

variable {children} {visited stack : List (List β × α)}

theorem Explored.init (start : α) : Explored children start [] [([], start)] where
  led p hp := by
    rw [List.mem_singleton.mp hp]
    exact .here start
  once := List.nodup_nil
  apart := List.pairwise_singleton _ _
  ahead _ hv := absurd hv List.not_mem_nil
  all path y hy := .inr ⟨_, List.mem_singleton_self _, path, rfl, hy⟩

theorem Explored.step {p : List β × α} (h : Explored children start visited (p :: stack))
    (hlabels : ((children p.2).map Prod.fst).Nodup) :
    Explored children start (visited ++ [p]) (branches children p ++ stack) where
  led q hq := by
    rcases List.mem_append.mp hq with hq | hq
    · refine h.led q ?_
      rcases List.mem_append.mp hq with hq | hq
      · exact List.mem_append_left _ hq
      · rw [List.mem_singleton.mp hq]
        exact List.mem_append_right _ List.mem_cons_self
    rcases List.mem_append.mp hq with hq | hq
    · obtain ⟨c, hc, rfl⟩ := List.mem_map.mp hq
      have hp := h.led p (List.mem_append_right _ List.mem_cons_self)
      exact hp.append (.down hc (.here c.2))
    · exact h.led q (List.mem_append_right _ (List.mem_cons_of_mem p hq))
  once := by
    rw [← List.concat_eq_append, List.map_concat]
    refine h.once.concat fun hin => ?_
    obtain ⟨v, hv, heq⟩ := List.mem_map.mp hin
    exact h.ahead v hv p List.mem_cons_self (heq ▸ List.prefix_rfl)
  apart := by
    obtain ⟨hp, hstack⟩ := List.pairwise_cons.mp h.apart
    refine List.pairwise_append.mpr ⟨?_, hstack, ?_⟩
    · refine List.pairwise_map.mpr ((List.pairwise_map.mp hlabels).imp fun {c c'} hne => ?_)
      constructor
      · intro hprefix
        have heq := hprefix.eq_of_length (by simp)
        exact hne (List.cons.inj (List.append_cancel_left heq)).1
      · intro hprefix
        have heq := hprefix.eq_of_length (by simp)
        exact hne (List.cons.inj (List.append_cancel_left heq)).1.symm
    · intro b hb q hq
      obtain ⟨c, -, rfl⟩ := List.mem_map.mp hb
      obtain ⟨hpq, hqp⟩ := hp q hq
      constructor
      · exact fun hprefix => hpq ((List.prefix_append _ _).trans hprefix)
      · intro hprefix
        rcases List.prefix_concat_iff.mp hprefix with heq | hprefix
        · exact hpq (heq ▸ List.prefix_append _ _)
        · exact hqp hprefix
  ahead v hv q hq := by
    obtain ⟨hp, -⟩ := List.pairwise_cons.mp h.apart
    rcases List.mem_append.mp hv with hv | hv
    · rcases List.mem_append.mp hq with hq | hq
      · obtain ⟨c, -, rfl⟩ := List.mem_map.mp hq
        exact fun hprefix =>
          h.ahead v hv p List.mem_cons_self ((List.prefix_append _ _).trans hprefix)
      · exact h.ahead v hv q (List.mem_cons_of_mem p hq)
    · rw [List.mem_singleton.mp hv]
      rcases List.mem_append.mp hq with hq | hq
      · obtain ⟨c, -, rfl⟩ := List.mem_map.mp hq
        intro hprefix
        have hle := hprefix.length_le
        rw [List.length_append, List.length_singleton] at hle
        omega
      · exact (hp q hq).2
  all path y hy := by
    rcases h.all path y hy with hv | ⟨q, hq, rest, rfl, hrest⟩
    · exact .inl (List.mem_append_left _ hv)
    rcases List.mem_cons.mp hq with rfl | hq
    · cases rest with
      | nil =>
        rw [leads_nil.mp hrest, List.append_nil]
        exact .inl (List.mem_append_right _ (List.mem_singleton_self _))
      | cons b rest =>
        obtain ⟨z, hz, hrest⟩ := leads_cons.mp hrest
        refine .inr ⟨(q.1 ++ [b], z), ?_, rest, by simp, hrest⟩
        exact List.mem_append_left _ (List.mem_map.mpr ⟨(b, z), hz, rfl⟩)
    · exact .inr ⟨q, List.mem_append_right _ hq, rest, rfl, hrest⟩

section Runs

variable (hlabels : ∀ x, ((children x).map Prod.fst).Nodup)

include hlabels

/-- A run either empties the stack or makes as many visits as it may. -/
theorem Explored.run (h : Explored children start visited stack) (n : Nat) :
    ∃ stack', Explored children start (visited ++ visits children n stack) stack' ∧
      ((visits children n stack).length < n → stack' = []) := by
  induction n generalizing visited stack with
  | zero =>
    refine ⟨stack, ?_, fun hlt => absurd hlt (Nat.not_lt_zero _)⟩
    rw [visits, List.append_nil]
    exact h
  | succ n ih =>
    cases stack with
    | nil =>
      refine ⟨[], ?_, fun _ => rfl⟩
      rw [visits, List.append_nil]
      exact h
    | cons p stack =>
      obtain ⟨stack', hrun, hempty⟩ := ih (h.step (hlabels p.2))
      rw [visits]
      refine ⟨stack', ?_, fun hlt => hempty (Nat.lt_of_succ_lt_succ hlt)⟩
      rwa [List.append_assoc] at hrun

/-- A path is visited at most once, and leads to what is visited. -/
theorem visits_led (start : α) (n : Nat) :
    ((visits children n [([], start)]).map Prod.fst).Nodup ∧
      ∀ p ∈ visits children n [([], start)], Leads children start p.1 p.2 := by
  obtain ⟨stack', hrun, -⟩ := (Explored.init start).run hlabels n
  exact ⟨hrun.once, fun p hp => hrun.led p (List.mem_append_left _ hp)⟩

/-- A run that ends early has visited all. -/
theorem order_visits {n : Nat} (h : (visits children n [([], start)]).length < n) :
    Order children start (visits children n [([], start)]) := by
  obtain ⟨stack', hrun, hempty⟩ := (Explored.init start).run hlabels n
  obtain rfl := hempty h
  refine ⟨hrun.once, fun p => ⟨fun hp => hrun.led p (List.mem_append_left _ hp), fun hp => ?_⟩⟩
  rcases hrun.all p.1 p.2 hp with hin | ⟨q, hq, -⟩
  · exact hin
  · cases hq

/-- Where only selected nodes have children and their keys are finitely many, no run takes up a key
twice just if no two paths lead to it. -/
theorem nodup_visits_iff [DecidableEq κ] {key : α → κ} {selected : α → Bool} {width : Nat}
    (bound : List κ)
    (hwidth : ∀ x, (children x).length ≤ if selected x = true then width else 0)
    (hbound : ∀ path y, Leads children start path y → selected y = true → key y ∈ bound) :
    (∀ n, ((((visits children n [([], start)]).map Prod.snd).filter selected).map key).Nodup) ↔
      Unshared children key selected start := by
  constructor
  · intro hall
    have hlength : ∀ n stack, (visits children n stack).length ≤ stack.length +
        width * (((visits children n stack).map Prod.snd).filter selected).length := by
      intro n
      induction n with
      | zero => exact fun _ => Nat.zero_le _
      | succ n ih =>
        intro stack
        cases stack with
        | nil => exact Nat.zero_le _
        | cons p stack =>
          have hrest := ih (branches children p ++ stack)
          have hw := hwidth p.2
          rw [List.length_append, branches, List.length_map] at hrest
          rw [visits, List.map_cons, List.length_cons, List.length_cons, branches]
          by_cases hsel : selected p.2 = true
          · rw [if_pos hsel] at hw
            rw [List.filter_cons_of_pos hsel, List.length_cons, Nat.mul_add, Nat.mul_one]
            omega
          · rw [if_neg hsel] at hw
            rw [List.filter_cons_of_neg hsel]
            omega
    let n := width * bound.length + 2
    have hkeys : ((((visits children n [([], start)]).map Prod.snd).filter selected).map key).length
        ≤ bound.length := by
      refine (List.subperm_of_subset (hall n) fun k hk => ?_).length_le
      obtain ⟨y, hy, rfl⟩ := List.mem_map.mp hk
      obtain ⟨hy, hsel⟩ := List.mem_filter.mp hy
      obtain ⟨p, hp, rfl⟩ := List.mem_map.mp hy
      exact hbound p.1 p.2 ((visits_led hlabels start n).2 p hp) hsel
    rw [List.length_map] at hkeys
    have hvisits := hlength n [([], start)]
    have hmul := Nat.mul_le_mul_left width hkeys
    have horder : Order children start (visits children n [([], start)]) :=
      order_visits hlabels (by rw [List.length_singleton] at hvisits; omega)
    exact (horder.nodup_keys_iff key selected).mp (hall n)
  · intro hunshared n
    obtain ⟨honce, hled⟩ := visits_led hlabels start n
    refine (Paths.nodup_keys_iff honce key selected).mpr fun p hp q hq hselp hselq hkey => ?_
    exact hunshared p.1 q.1 p.2 q.2 (hled p hp) (hled q hq) hselp hselq hkey

end Runs

end Stack

end Paths

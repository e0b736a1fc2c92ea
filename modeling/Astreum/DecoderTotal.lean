import Astreum.RoundTrip

namespace Astreum

section Below

variable (cells : List (Bytes × Expr))

/-- The cells that a cell of a message names, however far below. -/
inductive CellBelow : Expr → Expr → Prop
  | refl (e : Expr) : CellBelow e e
  | head {v : Val} {h : Bytes} {t : Child} {e c : Expr} (hne : h ≠ zero32)
      (hfound : lookupPair h cells = some e) (hbelow : CellBelow e c) :
      CellBelow (.link v (.byHash h) t) c
  | tail {v : Val} {h : Child} {t : Bytes} {e c : Expr} (hne : t ≠ zero32)
      (hfound : lookupPair t cells = some e) (hbelow : CellBelow e c) :
      CellBelow (.link v h (.byHash t)) c

/-- A child that the message does not hold. -/
def MissingChild (x : Bytes) : Prop := x ≠ zero32 ∧ lookupPair x cells = none

/-- A cell with a child that the message does not hold. -/
def MissesCell (e : Expr) : Prop :=
  ∃ v h t, e = .link v (.byHash h) (.byHash t) ∧ (MissingChild cells h ∨ MissingChild cells t)

/-- Bytes under a type that does not read them. -/
def Undecodable (e : Expr) : Prop :=
  ∃ v h t b tag err, e = .link v (.byHash h) (.byHash t) ∧ h ≠ zero32 ∧ t ≠ zero32 ∧
    lookupPair h cells = some (.bytes b) ∧ lookupPair t cells = some (.symbol tag) ∧
    tag ∈ builtinCompositeTypeNames ∧ tagByteDecode tag b = .error err

/-- Some cell at or below `e` is of a kind. -/
def HasBelow (kind : Expr → Prop) (e : Expr) : Prop := ∃ c, CellBelow cells e c ∧ kind c

/-- The children of a cell are ranked below it. -/
def RankedCells (rank : Bytes → Nat) : Prop :=
  ∀ x v h t, lookupPair x cells = some (.link v (.byHash h) (.byHash t)) →
    rank h < rank x ∧ rank t < rank x

variable {cells}

theorem hasBelow_link {kind : Expr → Prop} {v : Val} {h t : Bytes} :
    HasBelow cells kind (.link v (.byHash h) (.byHash t)) ↔
      kind (.link v (.byHash h) (.byHash t)) ∨
      (∃ e, h ≠ zero32 ∧ lookupPair h cells = some e ∧ HasBelow cells kind e) ∨
      (∃ e, t ≠ zero32 ∧ lookupPair t cells = some e ∧ HasBelow cells kind e) := by
  constructor
  · rintro ⟨c, hbelow, hc⟩
    cases hbelow with
    | refl => exact .inl hc
    | head hne hfound hbelow => exact .inr (.inl ⟨_, hne, hfound, c, hbelow, hc⟩)
    | tail hne hfound hbelow => exact .inr (.inr ⟨_, hne, hfound, c, hbelow, hc⟩)
  · rintro (hc | ⟨e, hne, hfound, c, hbelow, hc⟩ | ⟨e, hne, hfound, c, hbelow, hc⟩)
    · exact ⟨_, .refl _, hc⟩
    · exact ⟨c, .head hne hfound hbelow, hc⟩
    · exact ⟨c, .tail hne hfound hbelow, hc⟩

theorem hasBelow_leaf {kind : Expr → Prop} {e : Expr} (hleaf : ∀ v h t, e ≠ .link v h t) :
    HasBelow cells kind e ↔ kind e := by
  constructor
  · rintro ⟨c, hbelow, hc⟩
    cases hbelow with
    | refl => exact hc
    | head => exact absurd rfl (hleaf _ _ _)
    | tail => exact absurd rfl (hleaf _ _ _)
  · intro he
    exact ⟨e, .refl e, he⟩

end Below

section Linking

variable {blake3 : Bytes → Bytes} {cells : List (Bytes × Expr)} {rank : Bytes → Nat}

theorem linkChild_eq_ok {link : Expr → Py Linked} {zero l : Linked} {x : Bytes}
    (h : linkChild cells link zero (.byHash x) = .ok l) :
    (x = zero32 ∧ l = zero) ∨ (x ≠ zero32 ∧ ∃ e, lookupPair x cells = some e ∧ link e = .ok l) := by
  rw [linkChild] at h
  by_cases hzero : x = zero32
  · rw [if_pos hzero] at h
    cases h
    exact .inl ⟨hzero, rfl⟩
  · rw [if_neg hzero] at h
    rcases hfound : lookupPair x cells with _ | e <;> rw [hfound] at h
    · cases h
    · exact .inr ⟨hzero, e, rfl, h⟩

/-- Enough fuel links a cell, or a hash below it is missing. -/
def Links (blake3 : Bytes → Bytes) (cells : List (Bytes × Expr)) (fuel : Nat) (e : Expr) : Prop :=
  (∃ l, linkTree blake3 cells fuel e = .ok l ∧ ¬HasBelow cells (MissesCell cells) e) ∨
    (linkTree blake3 cells fuel e = .error .keyError ∧ HasBelow cells (MissesCell cells) e)

theorem linkChild_links {n : Nat} {x : Bytes} (zero : Linked)
    (hlinks : ∀ e, lookupPair x cells = some e → Links blake3 cells n e) :
    (∃ l, linkChild cells (linkTree blake3 cells n) zero (.byHash x) = .ok l ∧
        ¬MissingChild cells x ∧
        ¬∃ e, x ≠ zero32 ∧ lookupPair x cells = some e ∧ HasBelow cells (MissesCell cells) e) ∨
      (linkChild cells (linkTree blake3 cells n) zero (.byHash x) = .error .keyError ∧
        (MissingChild cells x ∨
          ∃ e, x ≠ zero32 ∧ lookupPair x cells = some e ∧
            HasBelow cells (MissesCell cells) e)) := by
  rw [linkChild]
  by_cases hzero : x = zero32
  · rw [if_pos hzero]
    refine .inl ⟨zero, rfl, fun hmissing => hmissing.1 hzero, ?_⟩
    rintro ⟨_, hne, -⟩
    exact hne hzero
  · rw [if_neg hzero]
    rcases hfound : lookupPair x cells with _ | e
    · exact .inr ⟨rfl, .inl ⟨hzero, hfound⟩⟩
    · rcases hlinks e hfound with ⟨l, hl, hnone⟩ | ⟨hl, hsome⟩
      · refine .inl ⟨l, hl, fun hmissing => ?_, ?_⟩
        · cases hfound.symm.trans hmissing.2
        · rintro ⟨e', -, he', hmissing⟩
          cases he'
          exact hnone hmissing
      · exact .inr ⟨hl, .inr ⟨e, hzero, rfl, hsome⟩⟩

theorem linkTree_links (hwire : ∀ x e, lookupPair x cells = some e → WireCell e)
    (hrank : RankedCells cells rank) {n : Nat} {e : Expr} (he : WireCell e)
    (hpos : 0 < n)
    (hfuel : ∀ v h t, e = .link v (.byHash h) (.byHash t) → rank h + 1 < n ∧ rank t + 1 < n) :
    Links blake3 cells n e := by
  induction n generalizing e with
  | zero => exact absurd hpos (lt_irrefl 0)
  | succ n ih =>
    cases he with
    | symbol s =>
      refine .inl ⟨_, rfl, ?_⟩
      rw [hasBelow_leaf (fun v h t heq => by cases heq)]
      rintro ⟨_, _, _, ⟨⟩, -⟩
    | bytes b =>
      refine .inl ⟨_, rfl, ?_⟩
      rw [hasBelow_leaf (fun v h t heq => by cases heq)]
      rintro ⟨_, _, _, ⟨⟩, -⟩
    | link head tail =>
      obtain ⟨hhead, htail⟩ := hfuel _ head tail rfl
      have hchild : ∀ x, rank x + 1 < n + 1 → ∀ e, lookupPair x cells = some e →
          Links blake3 cells n e := by
        intro x hx e hfound
        refine ih (hwire x e hfound) (by omega) ?_
        rintro v h t rfl
        obtain ⟨hh, ht⟩ := hrank x v h t hfound
        omega
      have hmisses : MissesCell cells (.link .none (.byHash head) (.byHash tail)) ↔
          MissingChild cells head ∨ MissingChild cells tail := by
        constructor
        · rintro ⟨_, _, _, heq, hmissing⟩
          cases heq
          exact hmissing
        · exact fun hmissing => ⟨_, _, _, rfl, hmissing⟩
      rw [Links, hasBelow_link, hmisses, linkTree]
      rcases linkChild_links .nil (hchild head hhead) with ⟨hd, hhd, hh₁, hh₂⟩ | ⟨hhd, hh⟩
      · rcases linkChild_links .absent (hchild tail htail) with
          ⟨tl, htl, ht₁, ht₂⟩ | ⟨htl, ht⟩
        · refine .inl ⟨_, by rw [hhd, htl]; rfl, ?_⟩
          rintro ((h | h) | h | h)
          · exact hh₁ h
          · exact ht₁ h
          · exact hh₂ h
          · exact ht₂ h
        · refine .inr ⟨by rw [hhd, htl]; rfl, ?_⟩
          rcases ht with h | h
          · exact .inl (.inr h)
          · exact .inr (.inr h)
      · refine .inr ⟨by rw [hhd]; rfl, ?_⟩
        rcases hh with h | h
        · exact .inl (.inl h)
        · exact .inr (.inl h)

theorem linkTree_bytes {n : Nat} {e : Expr} {x b : Bytes}
    (h : linkTree blake3 cells n e = .ok (.bytes x b)) : e = .bytes b := by
  cases n with
  | zero => cases h
  | succ n =>
    cases e with
    | bytes b' =>
      cases h
      rfl
    | link v hd tl =>
      rw [linkTree] at h
      obtain ⟨_, -, h⟩ := except_bind_eq_ok.mp h
      obtain ⟨_, -, h⟩ := except_bind_eq_ok.mp h
      cases h
    | _ => cases h

theorem linkTree_symbol {n : Nat} {e : Expr} {x : Bytes} {s : String}
    (h : linkTree blake3 cells n e = .ok (.symbol x s)) : e = .symbol s := by
  cases n with
  | zero => cases h
  | succ n =>
    cases e with
    | symbol s' =>
      cases h
      rfl
    | link v hd tl =>
      rw [linkTree] at h
      obtain ⟨_, -, h⟩ := except_bind_eq_ok.mp h
      obtain ⟨_, -, h⟩ := except_bind_eq_ok.mp h
      cases h
    | _ => cases h

theorem tagByteDecode_ne_outOfFuel (tag : String) (data : Bytes) :
    tagByteDecode tag data ≠ .error .outOfFuel := by
  rw [tagByteDecode]
  by_cases hint : tag = "int"
  · rw [if_pos hint]
    exact fun h => by cases h
  rw [if_neg hint]
  by_cases hstr : tag = "str" ∨ tag = "symbol"
  · rw [if_pos hstr, utf8Decode]
    rcases String.fromUTF8? ⟨data.toArray⟩ with _ | s <;> exact fun h => by cases h
  rw [if_neg hstr]
  by_cases hfloat : tag = "fp64"
  · rw [if_pos hfloat]
    by_cases hlength : data.length = 8
    · rw [if_pos hlength]
      exact fun h => by cases h
    · rw [if_neg hlength]
      exact fun h => by cases h
  · rw [if_neg hfloat]
    exact fun h => by cases h

/-- A pair of a bytes cell and a type is read by the type, any other link by its parts. -/
theorem reconstruct_cases (hash : Bytes) (v : Val) (hd tl : Linked) :
    (∃ x b y tag, hd = .bytes x b ∧ tl = .symbol y tag ∧ tag ∈ builtinCompositeTypeNames ∧
        reconstruct (.link hash v hd tl) =
          (tagByteDecode tag b).map fun v => .link hash v .absent (.symbol y tag)) ∨
      ((∀ x b y tag, hd = .bytes x b → tl = .symbol y tag → tag ∉ builtinCompositeTypeNames) ∧
        reconstruct (.link hash v hd tl) =
          (do return .link hash v (← reconstruct hd) (← reconstruct tl))) := by
  by_cases hpair : ∀ x b y tag, hd = .bytes x b → tl = .symbol y tag →
      tag ∉ builtinCompositeTypeNames
  · exact .inr ⟨hpair, reconstruct_link hpair⟩
  · simp only [not_forall, not_not] at hpair
    obtain ⟨x, b, y, tag, rfl, rfl, htag⟩ := hpair
    exact .inl ⟨x, b, y, tag, rfl, rfl, htag, by rw [reconstruct, if_pos htag]⟩

theorem reconstruct_ne_outOfFuel (l : Linked) : reconstruct l ≠ .error .outOfFuel := by
  induction l with
  | link hash v hd tl ihd itl =>
    rcases reconstruct_cases hash v hd tl with ⟨x, b, y, tag, -, -, -, heq⟩ | ⟨-, heq⟩
    · rw [heq]
      have htag := tagByteDecode_ne_outOfFuel tag b
      rcases hdecode : tagByteDecode tag b with err | v'
      · rw [hdecode] at htag
        intro hfuel
        cases hfuel
        exact htag rfl
      · exact nofun
    · rw [heq]
      rcases hhd : reconstruct hd with err | hd'
      · rw [hhd] at ihd
        intro hfuel
        cases hfuel
        exact ihd rfl
      · rcases htl : reconstruct tl with err | tl'
        · rw [htl] at itl
          intro hfuel
          cases hfuel
          exact itl rfl
        · exact nofun
  | _ => exact nofun

theorem linkChild_of_bytes {n : Nat} {zero l : Linked} {x b : Bytes} (hne : x ≠ zero32)
    (hfound : lookupPair x cells = some (.bytes b))
    (h : linkChild cells (linkTree blake3 cells n) zero (.byHash x) = .ok l) :
    ∃ y, l = .bytes y b := by
  rcases linkChild_eq_ok h with ⟨hx, -⟩ | ⟨-, e, he, hl⟩
  · exact absurd hx hne
  · cases hfound.symm.trans he
    cases n with
    | zero => cases hl
    | succ n =>
      cases hl
      exact ⟨_, rfl⟩

theorem linkChild_of_symbol {n : Nat} {zero l : Linked} {x : Bytes} {tag : String}
    (hne : x ≠ zero32) (hfound : lookupPair x cells = some (.symbol tag))
    (h : linkChild cells (linkTree blake3 cells n) zero (.byHash x) = .ok l) :
    ∃ y, l = .symbol y tag := by
  rcases linkChild_eq_ok h with ⟨hx, -⟩ | ⟨-, e, he, hl⟩
  · exact absurd hx hne
  · cases hfound.symm.trans he
    cases n with
    | zero => cases hl
    | succ n =>
      cases hl
      exact ⟨_, rfl⟩

/-- A pair of a bytes cell and a type is read where the type reads the bytes. -/
theorem isOk_pair {n : Nat} {v : Val} {head tail x b y hash : Bytes} {tag : String}
    (hhead : linkChild cells (linkTree blake3 cells n) .nil (.byHash head) = .ok (.bytes x b))
    (htail : linkChild cells (linkTree blake3 cells n) .absent (.byHash tail) =
      .ok (.symbol y tag))
    (htag : tag ∈ builtinCompositeTypeNames) :
    (∃ l', ((tagByteDecode tag b).map fun v => Linked.link hash v .absent (.symbol y tag)) =
        .ok l') ↔ ¬Undecodable cells (.link v (.byHash head) (.byHash tail)) := by
  rcases linkChild_eq_ok hhead with ⟨-, ⟨⟩⟩ | ⟨hh, e, hfoundHead, he⟩
  rcases linkChild_eq_ok htail with ⟨-, ⟨⟩⟩ | ⟨ht, e', hfoundTail, he'⟩
  rw [linkTree_bytes he] at hfoundHead
  rw [linkTree_symbol he'] at hfoundTail
  rcases hdecode : tagByteDecode tag b with err | v'
  · constructor
    · rintro ⟨l', ⟨⟩⟩
    · intro hsound
      exact absurd ⟨v, head, tail, b, tag, err, rfl, hh, ht, hfoundHead, hfoundTail, htag, hdecode⟩
        hsound
  · refine ⟨fun _ => ?_, fun _ => ⟨_, rfl⟩⟩
    rintro ⟨_, _, _, b', tag', err, ⟨⟩, -, -, hb, hs, -, herr⟩
    cases hfoundHead.symm.trans hb
    cases hfoundTail.symm.trans hs
    cases hdecode.symm.trans herr

/-- A tree that was linked is read unless bytes in it do not fit the type over them. -/
theorem isOk_reconstruct (hwire : ∀ x e, lookupPair x cells = some e → WireCell e) {n : Nat}
    {e : Expr} {l : Linked} (he : WireCell e) (h : linkTree blake3 cells n e = .ok l) :
    (∃ l', reconstruct l = .ok l') ↔ ¬HasBelow cells (Undecodable cells) e := by
  induction n generalizing e l with
  | zero => cases h
  | succ n ih =>
    cases he with
    | symbol s =>
      cases h
      rw [hasBelow_leaf (fun v h t heq => by cases heq)]
      refine ⟨fun _ => ?_, fun _ => ⟨_, rfl⟩⟩
      rintro ⟨_, _, _, _, _, _, ⟨⟩, -⟩
    | bytes b =>
      cases h
      rw [hasBelow_leaf (fun v h t heq => by cases heq)]
      refine ⟨fun _ => ?_, fun _ => ⟨_, rfl⟩⟩
      rintro ⟨_, _, _, _, _, _, ⟨⟩, -⟩
    | link head tail =>
      rw [linkTree] at h
      obtain ⟨hd, hhead, h⟩ := except_bind_eq_ok.mp h
      obtain ⟨tl, htail, h⟩ := except_bind_eq_ok.mp h
      cases h
      have hchild : ∀ (zero : Linked) (x : Bytes) (l : Linked),
          (∃ l', reconstruct zero = .ok l') →
          linkChild cells (linkTree blake3 cells n) zero (.byHash x) = .ok l →
          ((∃ l', reconstruct l = .ok l') ↔
            ¬∃ e, x ≠ zero32 ∧ lookupPair x cells = some e ∧
              HasBelow cells (Undecodable cells) e) := by
        intro zero x l hzero hl
        rcases linkChild_eq_ok hl with ⟨hx, rfl⟩ | ⟨hx, e, hfound, he⟩
        · refine ⟨fun _ => ?_, fun _ => hzero⟩
          rintro ⟨_, hne, -⟩
          exact hne hx
        · rw [ih (hwire x e hfound) he, not_iff_not]
          constructor
          · intro hbelow
            exact ⟨e, hx, hfound, hbelow⟩
          · rintro ⟨e', -, he', hbelow⟩
            rw [hfound] at he'
            cases he'
            exact hbelow
      have hhd := hchild .nil head hd ⟨_, rfl⟩ hhead
      have htl := hchild .absent tail tl ⟨_, rfl⟩ htail
      rw [hasBelow_link]
      rcases reconstruct_cases ((Expr.link .none (.byHash head) (.byHash tail)).hash blake3) .none
        hd tl with ⟨x, b, y, tag, rfl, rfl, htag, heq⟩ | ⟨hpair, heq⟩
      · have hnone : ¬_ ∧ ¬_ := ⟨hhd.mp ⟨_, rfl⟩, htl.mp ⟨_, rfl⟩⟩
        rw [heq, not_or, not_or, and_iff_left hnone]
        exact isOk_pair hhead htail htag
      · have hsound : ¬Undecodable cells (.link .none (.byHash head) (.byHash tail)) := by
          rintro ⟨_, _, _, b, tag, err, ⟨⟩, hh, ht, hfoundHead, hfoundTail, htag, -⟩
          obtain ⟨x, rfl⟩ := linkChild_of_bytes hh hfoundHead hhead
          obtain ⟨y, rfl⟩ := linkChild_of_symbol ht hfoundTail htail
          exact hpair x b y tag rfl rfl htag
        rw [heq, not_or, not_or, and_iff_right hsound, ← hhd, ← htl]
        constructor
        · rintro ⟨l', hl'⟩
          obtain ⟨hd', hhd', hl'⟩ := except_bind_eq_ok.mp hl'
          obtain ⟨tl', htl', -⟩ := except_bind_eq_ok.mp hl'
          exact ⟨⟨hd', hhd'⟩, ⟨tl', htl'⟩⟩
        · rintro ⟨⟨hd', hhd'⟩, ⟨tl', htl'⟩⟩
          rw [hhd', htl']
          exact ⟨_, rfl⟩

end Linking

section Total

variable (blake3 : Bytes → Bytes) (content : Bytes)

/-- No cell of a message is below itself: the hash of a cell comes after those of its children. -/
def AcyclicCells : Prop :=
  ∃ rank : Bytes → Nat, ∀ v h t, .link v (.byHash h) (.byHash t) ∈ messageCells content →
    let e : Expr := .link v (.byHash h) (.byHash t)
    rank h < rank (e.hash blake3) ∧ rank t < rank (e.hash blake3)

/-- A message of one page whose first cell is a link with all the cells below it in the message, one
of them bytes under a type that does not read them. -/
def HoldsUndecodable : Prop :=
  ∃ root exprs, decodeFoundPage content = .ok (1, 1, root :: exprs) ∧ root.base = .link ∧
    ¬HasBelow (exprMap blake3 (root :: exprs)) (MissesCell (exprMap blake3 (root :: exprs))) root ∧
    HasBelow (exprMap blake3 (root :: exprs)) (Undecodable (exprMap blake3 (root :: exprs))) root

variable {blake3 content}

theorem rankedCells_exprMap {exprs : List Expr} {rank : Bytes → Nat}
    (hrank : ∀ v h t, .link v (.byHash h) (.byHash t) ∈ exprs →
      let e : Expr := .link v (.byHash h) (.byHash t)
      rank h < rank (e.hash blake3) ∧ rank t < rank (e.hash blake3)) :
    RankedCells (exprMap blake3 exprs) rank := by
  intro x v h t hfound
  rcases List.mem_append.mp (mem_of_lookupPair hfound) with htype | hcell
  · obtain ⟨name, -, hname⟩ := List.mem_map.mp htype
    cases (Prod.mk.inj hname).2
  · obtain ⟨e, he, hpair⟩ := List.mem_map.mp (List.mem_reverse.mp hcell)
    obtain ⟨rfl, rfl⟩ := Prod.mk.inj hpair
    exact hrank v h t he

theorem decodeTransactionMessage_of_page {root : Expr} {exprs : List Expr}
    (hpage : decodeFoundPage content = .ok (1, 1, root :: exprs)) (hbase : root.base = .link)
    (fuel : Nat) : decodeTransactionMessage blake3 fuel content =
      match linkTree blake3 (exprMap blake3 (root :: exprs)) fuel root with
      | .error .keyError => .ok none
      | .error err => .error err
      | .ok linked => do
        let root ← reconstruct linked
        match root.tail with
        | .symbol _ "transaction" => return (parseTransaction root).toOption
        | _ => return none := by
  rw [decodeTransactionMessage.eq_def, hpage]
  exact if_neg (not_not_intro hbase)

/-- A tree that was linked gives a result where it can be read. -/
theorem decodes_of_linkTree {root : Expr} {exprs : List Expr} {fuel : Nat} {linked : Linked}
    (hpage : decodeFoundPage content = .ok (1, 1, root :: exprs)) (hbase : root.base = .link)
    (hlinked : linkTree blake3 (exprMap blake3 (root :: exprs)) fuel root = .ok linked) :
    decodeTransactionMessage blake3 fuel content ≠ .error .outOfFuel ∧
      ((∃ result, decodeTransactionMessage blake3 fuel content = .ok result) ↔
        ∃ read, reconstruct linked = .ok read) := by
  have hdecode := @decodeTransactionMessage_of_page blake3 content root exprs hpage hbase fuel
  rw [hlinked] at hdecode
  rcases hread : reconstruct linked with err | read
  · have herror : decodeTransactionMessage blake3 fuel content = .error err := by
      rw [hdecode]
      simp only [hread]
      rfl
    rw [herror]
    refine ⟨fun hfuel => ?_, ?_⟩
    · cases hfuel
      exact reconstruct_ne_outOfFuel linked hread
    · constructor
      · rintro ⟨result, ⟨⟩⟩
      · rintro ⟨l', ⟨⟩⟩
  · have hok : ∃ result, decodeTransactionMessage blake3 fuel content = .ok result := by
      rw [hdecode]
      simp only [hread]
      change ∃ result, (match read.tail with
        | .symbol _ "transaction" => (return (parseTransaction read).toOption)
        | _ => return none : Py (Option MessageTransaction)) = .ok result
      split
      · exact ⟨_, rfl⟩
      · exact ⟨_, rfl⟩
    refine ⟨?_, fun _ => ⟨read, rfl⟩, fun _ => hok⟩
    obtain ⟨result, hresult⟩ := hok
    rw [hresult]
    exact nofun

theorem decodeTransactionMessage_of_not_page
    (hpage : ¬∃ root exprs, decodeFoundPage content = .ok (1, 1, root :: exprs) ∧
      root.base = .link) (fuel : Nat) :
    decodeTransactionMessage blake3 fuel content = .ok none := by
  rw [decodeTransactionMessage.eq_def]
  split
  · rename_i root exprs hfound
    rw [if_pos fun hbase => hpage ⟨root, exprs, hfound, hbase⟩]
  · rfl

/-- With enough fuel the decoder returns, unless the message holds bytes that do not fit the type
over them: then it raises. -/
theorem transaction_decoder_returns_iff (hacyclic : AcyclicCells blake3 content) :
    ∃ bound, ∀ fuel, bound ≤ fuel →
      decodeTransactionMessage blake3 fuel content ≠ .error .outOfFuel ∧
      ((∃ result, decodeTransactionMessage blake3 fuel content = .ok result) ↔
        ¬HoldsUndecodable blake3 content) := by
  by_cases hpage : ∃ root exprs, decodeFoundPage content = .ok (1, 1, root :: exprs) ∧
      root.base = .link
  · obtain ⟨root, exprs, hpage, hbase⟩ := hpage
    have hcells : messageCells content = root :: exprs := by rw [messageCells, hpage]
    obtain ⟨rank, hrank⟩ := hacyclic
    rw [hcells] at hrank
    have hexprs : ∀ e ∈ root :: exprs, WireCell e := decodeFoundPage_wire hpage
    have hwire : ∀ x e, lookupPair x (exprMap blake3 (root :: exprs)) = some e → WireCell e :=
      fun x e hfound => (exprMap_lookup hexprs hfound).2
    have hroot : WireCell root := hexprs root List.mem_cons_self
    refine ⟨rank (root.hash blake3) + 2, fun fuel hfuel => ?_⟩
    have hlinks : Links blake3 (exprMap blake3 (root :: exprs)) fuel root := by
      refine linkTree_links hwire (rankedCells_exprMap hrank) hroot (by omega) ?_
      rintro v h t rfl
      have hlt := hrank v h t List.mem_cons_self
      dsimp only at hlt
      omega
    have hholds : HoldsUndecodable blake3 content ↔
        ¬HasBelow (exprMap blake3 (root :: exprs)) (MissesCell (exprMap blake3 (root :: exprs)))
          root ∧
        HasBelow (exprMap blake3 (root :: exprs)) (Undecodable (exprMap blake3 (root :: exprs)))
          root := by
      constructor
      · rintro ⟨root', exprs', hpage', -, hcells'⟩
        cases hpage.symm.trans hpage'
        exact hcells'
      · exact fun hcells' => ⟨root, exprs, hpage, hbase, hcells'⟩
    rw [hholds]
    rcases hlinks with ⟨linked, hlinked, hfull⟩ | ⟨hlinked, hmisses⟩
    · rw [and_iff_right hfull, ← isOk_reconstruct hwire hroot hlinked]
      exact decodes_of_linkTree hpage hbase hlinked
    · rw [decodeTransactionMessage_of_page hpage hbase, hlinked]
      exact ⟨fun h => (by cases h), fun _ hholds => hholds.1 hmisses, fun _ => ⟨none, rfl⟩⟩
  · refine ⟨0, fun fuel _ => ?_⟩
    rw [decodeTransactionMessage_of_not_page hpage]
    refine ⟨fun h => (by cases h), fun _ => ?_, fun _ => ⟨none, rfl⟩⟩
    rintro ⟨root, exprs, hfound, hbase, -⟩
    exact hpage ⟨root, exprs, hfound, hbase⟩

end Total

section Samples

/-- A message whose only link puts the byte 255 under the type of texts. -/
def noTextMessage : Bytes :=
  (encodeSinglePage sampleDigest [pairOfNoText, .bytes [255]]).toOption.getD []

/-- The decoder raises on a message with bytes that are no text under the type of texts. -/
theorem no_text_raises :
    decodeTransactionMessage sampleDigest 20 noTextMessage = .error .valueError := by
  decide +kernel

/-- A link over two bytes and the type of texts. -/
def textRoot : Expr :=
  .link .none (.byHash (terminalHash sampleDigest 2 (utf8 "hi")))
    (.byHash (terminalHash sampleDigest 1 (utf8 "str")))

def textMessage : Bytes :=
  (encodeSinglePage sampleDigest [textRoot, .bytes (utf8 "hi")]).toOption.getD []

theorem text_message_returns : ∃ bound, ∀ fuel, bound ≤ fuel →
    decodeTransactionMessage sampleDigest fuel textMessage ≠ .error .outOfFuel ∧
    ((∃ result, decodeTransactionMessage sampleDigest fuel textMessage = .ok result) ↔
      ¬HoldsUndecodable sampleDigest textMessage) := by
  refine transaction_decoder_returns_iff
    ⟨fun x => if x = textRoot.hash sampleDigest then 1 else 0, ?_⟩
  have hcells : messageCells textMessage = [textRoot, .bytes (utf8 "hi")] := by decide +kernel
  rw [hcells]
  intro v h t hmem
  rcases List.mem_cons.mp hmem with heq | hmem
  · have hhead : terminalHash sampleDigest 2 (utf8 "hi") ≠ textRoot.hash sampleDigest := by
      decide +kernel
    have htail : terminalHash sampleDigest 1 (utf8 "str") ≠ textRoot.hash sampleDigest := by
      decide +kernel
    rw [heq]
    cases heq
    dsimp only
    rw [if_pos rfl, if_neg hhead, if_neg htail]
    exact ⟨Nat.one_pos, Nat.one_pos⟩
  · cases List.mem_singleton.mp hmem

end Samples

end Astreum

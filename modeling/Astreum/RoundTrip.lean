import Astreum.Codec
import Astreum.Message

namespace Astreum

section Pages

variable {blake3 : Bytes → Bytes}

theorem fromBytesBig_toBytesBig {len n : Nat} {bs : Bytes} (h : toBytesBig len n = .ok bs) :
    bs.length = len ∧ Python.fromBytesBig bs = n := by
  rw [toBytesBig, Python.toBytesUnsigned] at h
  split at h
  · cases h
  · rename_i hfit
    have hlt : n < 256 ^ len := by
      have hle := (not_or.mp hfit).2
      exact_mod_cast not_le.mp hle
    cases h
    rw [Python.fromBytesBig, List.reverse_reverse, List.length_reverse, Int.toNat_natCast,
      length_toBytesLittle, fromBytesLittle_toBytesLittle hlt]
    exact ⟨rfl, rfl⟩

/-- A cell as it comes off the wire. -/
def wireOf (blake3 : Bytes → Bytes) : Expr → Expr
  | .symbol s => .symbol s
  | .bytes b => .bytes b
  | e => .link .none (.byHash (e.getHeadHash blake3)) (.byHash (e.getTailHash blake3))

theorem encodeExprToBytes_ne_nil (e : Expr) : encodeExprToBytes blake3 e ≠ [] := by
  cases e <;> simp [encodeExprToBytes]

/-- A cell whose children are known by hashes of 32 bytes is read as it was written. -/
theorem decodeExprFromBytes_encode {e : Expr} (hbytes : ∀ e', e ≠ .bytesOf e')
    (hhead : (e.getHeadHash blake3).length = 32) (htail : (e.getTailHash blake3).length = 32) :
    decodeExprFromBytes (encodeExprToBytes blake3 e) = .ok (wireOf blake3 e) := by
  have hlink : ∀ head tail : Bytes, head.length = 32 → tail.length = 32 →
      decodeExprFromBytes (0 :: head ++ tail) = .ok (.link .none (.byHash head) (.byHash tail)) := by
    intro head tail hh ht
    rw [List.cons_append, decodeExprFromBytes, if_neg (by simp [hh, ht]), List.take_left' hh,
      List.drop_left' hh, List.take_of_length_le (by omega)]
  cases e with
  | nil => exact hlink _ _ hhead htail
  | symbol s =>
    simp only [encodeExprToBytes, decodeExprFromBytes, utf8Decode_utf8]
    rfl
  | bytes b => rfl
  | bytesOf e => exact absurd rfl (hbytes e)
  | link v h t => exact hlink _ _ hhead htail

theorem forall₂_decode {exprs : List Expr}
    (hread : ∀ e ∈ exprs, decodeExprFromBytes (encodeExprToBytes blake3 e) = .ok (wireOf blake3 e)) :
    List.Forall₂ (fun x e => decodeExprFromBytes x = .ok e)
      (exprs.map (encodeExprToBytes blake3)) (exprs.map (wireOf blake3)) := by
  induction exprs with
  | nil => exact .nil
  | cons e exprs ih =>
    exact .cons (hread e List.mem_cons_self) (ih fun e' he => hread e' (List.mem_cons_of_mem _ he))

theorem pageEntries_joinEntries {entries : List Bytes} {exprs : List Expr} {bs : Bytes}
    (hread : List.Forall₂ (fun x e => decodeExprFromBytes x = .ok e) entries exprs)
    (h : joinEntries entries = .ok bs) : pageEntries entries.length bs = .ok exprs := by
  induction hread generalizing bs with
  | nil =>
    cases h
    rfl
  | @cons entry e entries exprs hentry _ ih =>
    rw [joinEntries] at h
    obtain ⟨first, hfirst, h⟩ := except_bind_eq_ok.mp h
    obtain ⟨rest, hrest, h⟩ := except_bind_eq_ok.mp h
    cases h
    obtain ⟨len, hlen, hfirst⟩ := except_bind_eq_ok.mp hfirst
    cases hfirst
    obtain ⟨hlength, hvalue⟩ := fromBytesBig_toBytesBig hlen
    have hpos : entry.length ≠ 0 := by
      intro hzero
      rw [List.length_eq_zero_iff.mp hzero] at hentry
      cases hentry
    have htake : (len ++ entry ++ rest).take 4 = len := by
      rw [List.append_assoc, List.take_left' hlength]
    have hdrop : (len ++ entry ++ rest).drop 4 = entry ++ rest := by
      rw [List.append_assoc, List.drop_left' hlength]
    rw [List.length_cons, pageEntries, if_neg (by simp [hlength]), htake, hdrop, hvalue,
      if_neg (by simp [hpos]), List.take_left' rfl, List.drop_left' rfl, hentry]
    simp only [ih hrest]
    rfl

/-- A page is read as it was built. -/
theorem decodeFoundPage_buildPage {number total : Nat} {entries : List Bytes} {exprs : List Expr}
    {content : Bytes} (hnumber : number ≠ 0) (hle : number ≤ total) (hne : entries ≠ [])
    (hread : List.Forall₂ (fun x e => decodeExprFromBytes x = .ok e) entries exprs)
    (h : buildPage number total entries = .ok content) :
    decodeFoundPage content = .ok (number, total, exprs) := by
  rw [buildPage] at h
  obtain ⟨page, hpage, h⟩ := except_bind_eq_ok.mp h
  obtain ⟨pages, hpages, h⟩ := except_bind_eq_ok.mp h
  obtain ⟨count, hcount, h⟩ := except_bind_eq_ok.mp h
  obtain ⟨joined, hjoined, h⟩ := except_bind_eq_ok.mp h
  cases h
  obtain ⟨lpage, vpage⟩ := fromBytesBig_toBytesBig hpage
  obtain ⟨lpages, vpages⟩ := fromBytesBig_toBytesBig hpages
  obtain ⟨lcount, vcount⟩ := fromBytesBig_toBytesBig hcount
  have hlength : entries.length ≠ 0 := by simpa using hne
  have hcons : 1 :: page ++ pages ++ count ++ joined =
      1 :: (page ++ (pages ++ (count ++ joined))) := by simp
  have hone : (1 :: (page ++ (pages ++ (count ++ joined)))).drop 1 =
      page ++ (pages ++ (count ++ joined)) := rfl
  have hthree : (1 :: (page ++ (pages ++ (count ++ joined)))).drop 3 =
      pages ++ (count ++ joined) := by
    rw [show (3 : Nat) = 2 + 1 from rfl, List.drop_succ_cons, List.drop_left' lpage]
  have hfive : (1 :: (page ++ (pages ++ (count ++ joined)))).drop 5 = count ++ joined := by
    rw [show (5 : Nat) = 3 + 2 by rfl, ← List.drop_drop, hthree, List.drop_left' lpages]
  have hseven : (1 :: (page ++ (pages ++ (count ++ joined)))).drop 7 = joined := by
    rw [show (7 : Nat) = 5 + 2 by rfl, ← List.drop_drop, hfive, List.drop_left' lcount]
  rw [hcons, decodeFoundPage, if_neg (by simp [lpage, lpages, lcount]; omega)]
  rw [hone, hthree, hfive, hseven, List.take_left' lpage, List.take_left' lpages,
    List.take_left' lcount, vpage, vpages, vcount]
  dsimp only
  rw [if_neg (by omega), pageEntries_joinEntries hread hjoined]
  rfl

theorem packPages_ne_nil (page : List Bytes) (used : Nat) (exprs : List Expr) :
    packPages blake3 page used exprs ≠ .ok [] := by
  induction exprs generalizing page used with
  | nil => exact nofun
  | cons e exprs ih =>
    rw [packPages]
    split
    · exact nofun
    split
    · intro h
      obtain ⟨others, -, h⟩ := except_bind_eq_ok.mp h
      cases h
    · exact ih _ _

/-- A message of one page holds all the cells. -/
theorem packPages_single {page packed : List Bytes} {used : Nat} {exprs : List Expr}
    (h : packPages blake3 page used exprs = .ok [packed]) :
    packed = page ++ exprs.map (encodeExprToBytes blake3) := by
  induction exprs generalizing page used with
  | nil =>
    cases h
    simp
  | cons e exprs ih =>
    rw [packPages] at h
    split at h
    · cases h
    split at h
    · obtain ⟨others, hothers, h⟩ := except_bind_eq_ok.mp h
      cases h
      exact absurd hothers (packPages_ne_nil _ _ _)
    · rw [ih h, List.map_cons, List.append_assoc]
      rfl

/-- What is sent is the page of all the cells. -/
theorem encodeSinglePage_eq_ok {exprs : List Expr} {content : Bytes}
    (h : encodeSinglePage blake3 exprs = .ok content) :
    exprs ≠ [] ∧ buildPage 1 1 (exprs.map (encodeExprToBytes blake3)) = .ok content := by
  cases exprs with
  | nil => cases h
  | cons root exprs =>
    refine ⟨List.cons_ne_nil _ _, ?_⟩
    rw [encodeSinglePage] at h
    split at h
    · cases h
    obtain ⟨pages, hpages, h⟩ := except_bind_eq_ok.mp h
    split at h
    · rw [packPages_single hpages] at h
      exact h
    · cases h

end Pages

section Trees

variable {blake3 : Bytes → Bytes}

mutual

/-- A cell that is loaded with all below it, and whose values are those of their types. -/
def Expr.Loaded : Expr → Prop
  | .bytesOf _ => False
  | .link v h t => (v = .none ∧ h.Loaded ∧ t.Loaded) ∨
      (h = .none ∧ ∃ tag, t = .loaded (.symbol tag) ∧ holdsType tag v = true)
  | _ => True

def Child.Loaded : Child → Prop
  | .none => True
  | .loaded e => e.Loaded
  | .byHash _ => False

end

/-- The bytes cell that stands for a value. -/
def payloadCells (v : Val) (t : Child) : List Expr :=
  match payload? v t with
  | some data => [.bytes data]
  | none => []

mutual

/-- The cells of a tree, the bytes cells that stand for values among them. -/
def Expr.cells : Expr → List Expr
  | .link v h t => .link v h t :: (h.cells ++ (payloadCells v t ++ t.cells))
  | e => [e]

def Child.cells : Child → List Expr
  | .loaded e => e.cells
  | _ => []

end

mutual

def Expr.linkDepth : Expr → Nat
  | .link _ h t => max h.linkDepth t.linkDepth + 1
  | _ => 0

def Child.linkDepth : Child → Nat
  | .loaded e => e.linkDepth
  | _ => 0

end

/-- Different cells of a tree have different hashes when they are sent, which are not those of nil
and of the types. -/
structure CellsDistinct (blake3 : Bytes → Bytes) (root : Expr) : Prop where
  wire : ∀ e ∈ root.cells, ∀ e' ∈ root.cells,
    (wireOf blake3 e).hash blake3 = (wireOf blake3 e').hash blake3 → wireOf blake3 e = wireOf blake3 e'
  nil : ∀ e ∈ root.cells, e.hash blake3 = zero32 → e = .nil
  type : ∀ e ∈ root.cells, ∀ tag ∈ builtinCompositeTypeNames,
    (wireOf blake3 e).hash blake3 = terminalHash blake3 1 (utf8 tag) → e = .symbol tag

mutual

/-- A tree of cells as it is linked. -/
def linkedOf (blake3 : Bytes → Bytes) : Expr → Linked
  | .nil => .nil
  | .symbol s => .symbol (terminalHash blake3 1 (utf8 s)) s
  | .bytes b => .bytes (terminalHash blake3 2 b) b
  | .bytesOf _ => .absent
  | .link v h t =>
    let head := match payload? v t with
      | some data => .bytes (terminalHash blake3 2 data) data
      | none => linkedChild blake3 .nil h
    .link ((Expr.link v h t).hash blake3) .none head (linkedChild blake3 .absent t)

/-- A child, where nil and no child are both `zero`. -/
def linkedChild (blake3 : Bytes → Bytes) (zero : Linked) : Child → Linked
  | .loaded e => if e = .nil then zero else linkedOf blake3 e
  | _ => zero

end

/-- A bytes cell under the symbol of a type. -/
def typedPair? : Child → Child → Option (Bytes × String)
  | .loaded (.bytes b), .loaded (.symbol tag) =>
    if tag ∈ builtinCompositeTypeNames then some (b, tag) else none
  | _, _ => none

mutual

/-- What a message should give for a cell: the same hash, the same values, and a bytes cell under a
type symbol read as the value that it stands for. -/
def Linked.ofExpr (blake3 : Bytes → Bytes) : Expr → Py Linked
  | .nil => .ok .nil
  | .symbol s => .ok (.symbol (terminalHash blake3 1 (utf8 s)) s)
  | .bytes b => .ok (.bytes (terminalHash blake3 2 b) b)
  | .bytesOf _ => .error .typeError
  | .link v h t =>
    let hash := (Expr.link v h t).hash blake3
    match typedPair? h t with
    | some (b, tag) => (tagByteDecode tag b).map fun value =>
        .link hash value .absent (.symbol (terminalHash blake3 1 (utf8 tag)) tag)
    | none => do
      let head ← Linked.ofChild blake3 (if v = .none then .nil else .absent) h
      let tail ← Linked.ofChild blake3 .absent t
      return .link hash v head tail

def Linked.ofChild (blake3 : Bytes → Bytes) (zero : Linked) : Child → Py Linked
  | .loaded e => if e = .nil then .ok zero else Linked.ofExpr blake3 e
  | _ => .ok zero

end

mutual

/-- Every bytes cell under the symbol of a type is one that the type reads. -/
def Expr.decodes : Expr → Bool
  | .link _ h t => match typedPair? h t with
    | some (b, tag) => (tagByteDecode tag b).isOk
    | none => h.decodes && t.decodes
  | _ => true

def Child.decodes : Child → Bool
  | .loaded e => e.decodes
  | _ => true

end

theorem hash_link (v : Val) (h t : Child) : (Expr.link v h t).hash blake3 =
    linkHash blake3 ((Expr.link v h t).getHeadHash blake3) ((Expr.link v h t).getTailHash blake3) := by
  cases h <;> simp [Expr.hash, Expr.getHeadHash, Expr.getTailHash, Expr.headChild, Expr.tailChild,
    Expr.value]

theorem hash_wireOf {e : Expr} (hnil : e ≠ .nil) (hloaded : e.Loaded) :
    (wireOf blake3 e).hash blake3 = e.hash blake3 := by
  cases e with
  | nil => exact absurd rfl hnil
  | bytesOf e => exact hloaded.elim
  | link v h t =>
    rw [hash_link v h t]
    simp [wireOf, Expr.hash, Child.hash]
  | symbol s => rfl
  | bytes b => rfl

/-- A property of cells that goes down to the sides of a link, unless the link is a value under its
type. -/
structure GoesDown (P : Expr → Prop) (Q : Child → Prop) : Prop where
  sides : ∀ {v h t}, P (.link v h t) →
    Q h ∧ Q t ∨ h = .none ∧ ∃ tag, t = .loaded (.symbol tag)
  loaded : ∀ {e}, Q (.loaded e) → P e
  symbol : ∀ s, P (.symbol s)
  bytes : ∀ b, P (.bytes b)

section GoesDown

variable {P : Expr → Prop} {Q : Child → Prop}

mutual

theorem GoesDown.cells (hdown : GoesDown P Q) (e : Expr) (h : P e) : ∀ c ∈ e.cells, P c := by
  cases e with
  | link v hd tl =>
    intro c hc
    rcases List.mem_cons.mp hc with rfl | hc
    · exact h
    rcases List.mem_append.mp hc with hc | hc
    · rcases hdown.sides h with ⟨hhd, -⟩ | ⟨rfl, -⟩
      · exact hdown.childCells hd hhd c hc
      · cases hc
    rcases List.mem_append.mp hc with hc | hc
    · rw [payloadCells] at hc
      split at hc
      · rw [List.mem_singleton.mp hc]
        exact hdown.bytes _
      · cases hc
    · rcases hdown.sides h with ⟨-, htl⟩ | ⟨-, tag, rfl⟩
      · exact hdown.childCells tl htl c hc
      · rw [List.mem_singleton.mp hc]
        exact hdown.symbol tag
  | _ =>
    intro c hc
    rw [List.mem_singleton.mp hc]
    exact h

theorem GoesDown.childCells (hdown : GoesDown P Q) (ch : Child) (h : Q ch) : ∀ c ∈ ch.cells, P c := by
  cases ch with
  | loaded e => exact hdown.cells e (hdown.loaded h)
  | none => exact fun _ h => absurd h List.not_mem_nil
  | byHash x => exact fun _ h => absurd h List.not_mem_nil

end

end GoesDown

theorem goesDown_loaded : GoesDown Expr.Loaded Child.Loaded where
  sides := by
    rintro v h t (⟨-, hh, ht⟩ | ⟨rfl, tag, rfl, -⟩)
    · exact .inl ⟨hh, ht⟩
    · exact .inr ⟨rfl, tag, rfl⟩
  loaded := id
  symbol _ := trivial
  bytes _ := trivial

theorem Expr.cells_loaded (e : Expr) (h : e.Loaded) : ∀ c ∈ e.cells, c.Loaded :=
  goesDown_loaded.cells e h

theorem Expr.mem_cells (e : Expr) : e ∈ e.cells := by
  cases e <;> simp [Expr.cells]

section Lengths

variable (hdigest : ∀ x, (blake3 x).length = 32)

include hdigest

theorem length_hash {e : Expr} (h : e.Loaded) : (e.hash blake3).length = 32 := by
  cases e with
  | nil => rfl
  | bytesOf e => exact h.elim
  | symbol s => exact hdigest _
  | bytes b => exact hdigest _
  | link v hd tl =>
    rw [hash_link]
    exact hdigest _

theorem length_childHash {ch : Child} (h : ch.Loaded) : (ch.hash blake3).length = 32 := by
  cases ch with
  | none => rfl
  | loaded e => exact length_hash hdigest h
  | byHash x => exact h.elim

theorem decode_cell {e : Expr} (h : e.Loaded) :
    decodeExprFromBytes (encodeExprToBytes blake3 e) = .ok (wireOf blake3 e) := by
  refine decodeExprFromBytes_encode (fun e' he => ?_) ?_ ?_
  · rw [he] at h
    exact h
  · rw [Expr.getHeadHash]
    cases e with
    | link v hd tl =>
      have hhead : hd.Loaded := by
        rcases h with ⟨-, hhd, -⟩ | ⟨rfl, -⟩
        · exact hhd
        · trivial
      have hany : ∀ ch : Child, ch.Loaded → (match payload? v tl with
          | some p => terminalHash blake3 2 p
          | none => ch.hash blake3).length = 32 := by
        intro ch hch
        split
        · exact hdigest _
        · exact length_childHash hdigest hch
      cases hd with
      | byHash x => exact hhead.elim
      | none => exact hany .none hhead
      | loaded e => exact hany (.loaded e) hhead
    | _ => rfl
  · rw [Expr.getTailHash]
    cases e with
    | link v hd tl =>
      rcases h with ⟨-, -, htl⟩ | ⟨-, tag, rfl, -⟩
      · exact length_childHash hdigest htl
      · exact hdigest _
    | _ => rfl

end Lengths

theorem mem_of_addCells {seen : List Bytes} {exprs : List Expr} {c : Expr}
    (h : c ∈ addCells blake3 seen exprs) : c ∈ exprs := by
  induction exprs generalizing seen with
  | nil => cases h
  | cons e exprs ih =>
    rw [addCells] at h
    split at h
    · exact List.mem_cons_of_mem _ (ih h)
    · rcases List.mem_cons.mp h with rfl | h
      · exact List.mem_cons_self
      · exact List.mem_cons_of_mem _ (ih h)

theorem addCells_covers {seen : List Bytes} {exprs : List Expr} {c : Expr} (h : c ∈ exprs) :
    c.hash blake3 ∈ seen ∨ ∃ c' ∈ addCells blake3 seen exprs, c'.hash blake3 = c.hash blake3 := by
  induction exprs generalizing seen with
  | nil => cases h
  | cons e exprs ih =>
    rw [addCells]
    rcases List.mem_cons.mp h with rfl | h
    · split
      · exact .inl ‹_›
      · exact .inr ⟨c, List.mem_cons_self, rfl⟩
    · split
      · exact ih h
      · rcases @ih (e.hash blake3 :: seen) h with hseen | ⟨c', hc', hhash⟩
        · rcases List.mem_cons.mp hseen with hsame | hseen
          · exact .inr ⟨e, List.mem_cons_self, hsame.symm⟩
          · exact .inl hseen
        · exact .inr ⟨c', List.mem_cons_of_mem _ hc', hhash⟩

theorem isKnownType_iff {h : Bytes} : isKnownType blake3 h ↔
    ∃ tag ∈ builtinCompositeTypeNames, terminalHash blake3 1 (utf8 tag) = h := by
  simp [isKnownType]

/-- A typed cell says so to the walk. -/
theorem inlineType_of_holds {v : Val} {tag : String} (h : holdsType tag v) :
    inlineType? v (.loaded (.symbol tag)) = some tag := by
  have hv : v ≠ .none := by
    rintro rfl
    cases h
  rw [inlineType?, if_pos ⟨hv, (tagByteDecode_encode h).1⟩]

theorem payload_of_holds {v : Val} {tag : String} (h : holdsType tag v) :
    ∃ data, payload? v (.loaded (.symbol tag)) = some data ∧ tagByteEncode tag v = some data ∧
      tagByteDecode tag data = .ok v := by
  obtain ⟨-, data, hencode, hdecode⟩ := tagByteDecode_encode h
  exact ⟨data, hencode, hencode, hdecode⟩

theorem inlineType_none (t : Child) : inlineType? .none t = none := by
  cases t with
  | loaded e => cases e <;> simp [inlineType?]
  | _ => rfl

theorem payload_none (t : Child) : payload? .none t = none := by
  cases t with
  | loaded e => cases e <;> rfl
  | _ => rfl

mutual

/-- The walk meets the cells of the tree, all but the types. -/
theorem walkCells_ok (e : Expr) (hloaded : e.Loaded)
    (htype : ∀ c ∈ e.cells, ∀ tag ∈ builtinCompositeTypeNames,
      (wireOf blake3 c).hash blake3 = terminalHash blake3 1 (utf8 tag) → c = .symbol tag)
    {cells : List Expr} (h : walkCells blake3 e = .ok cells) :
    (∀ c ∈ cells, c ∈ e.cells) ∧
      ∀ c ∈ e.cells, isKnownType blake3 (c.hash blake3) ∨ c ∈ cells := by
  have hterminal : ∀ e : Expr, e.cells = [e] →
      (.ok (if isKnownType blake3 (e.hash blake3) then [] else [e]) : Py (List Expr)) = .ok cells →
      (∀ c ∈ cells, c ∈ e.cells) ∧
        ∀ c ∈ e.cells, isKnownType blake3 (c.hash blake3) ∨ c ∈ cells := by
    intro e he h
    cases h
    rw [he]
    split
    · rename_i hknown
      refine ⟨fun _ h => absurd h List.not_mem_nil, fun c hc => .inl ?_⟩
      rwa [List.mem_singleton.mp hc]
    · exact ⟨fun c hc => hc, fun c hc => .inr hc⟩
  cases e with
  | link v hd tl =>
    have hunknown : isKnownType blake3 ((Expr.link v hd tl).hash blake3) = false := by
      rw [Bool.eq_false_iff]
      intro hknown
      obtain ⟨tag, htag, hhash⟩ := isKnownType_iff.mp hknown
      have hlink := htype _ (Expr.mem_cells _) tag htag
        ((@hash_wireOf blake3 (.link v hd tl) nofun hloaded).trans hhash.symm)
      cases hlink
    rw [walkCells, hunknown] at h
    rcases hloaded with ⟨rfl, hhd, htl⟩ | ⟨rfl, tag, rfl, hholds⟩
    · rw [inlineType_none] at h
      obtain ⟨heads, hheads, h⟩ := except_bind_eq_ok.mp h
      obtain ⟨tails, htails, h⟩ := except_bind_eq_ok.mp h
      cases h
      have hcells : (Expr.link .none hd tl).cells = .link .none hd tl :: (hd.cells ++ tl.cells) := by
        rw [Expr.cells, payloadCells, payload_none]
        rfl
      rw [hcells] at htype ⊢
      obtain ⟨inHeads, allHeads⟩ := walkChild_ok hd hhd
        (fun c hc => htype c (List.mem_cons_of_mem _ (List.mem_append_left _ hc))) hheads
      obtain ⟨inTails, allTails⟩ := walkChild_ok tl htl
        (fun c hc => htype c (List.mem_cons_of_mem _ (List.mem_append_right _ hc))) htails
      constructor
      · intro c hc
        rcases List.mem_cons.mp hc with rfl | hc
        · exact List.mem_cons_self
        · refine List.mem_cons_of_mem _ ?_
          exact (List.mem_append.mp hc).elim (fun h => List.mem_append_left _ (inHeads c h))
            fun h => List.mem_append_right _ (inTails c h)
      · intro c hc
        rcases List.mem_cons.mp hc with rfl | hc
        · exact .inr List.mem_cons_self
        rcases List.mem_append.mp hc with hc | hc
        · exact (allHeads c hc).imp_right fun h => List.mem_cons_of_mem _ (List.mem_append_left _ h)
        · exact (allTails c hc).imp_right fun h => List.mem_cons_of_mem _ (List.mem_append_right _ h)
    · obtain ⟨data, hpayload, hencode, -⟩ := payload_of_holds hholds
      rw [inlineType_of_holds hholds] at h
      obtain ⟨values, hvalues, h⟩ := except_bind_eq_ok.mp h
      rw [valueCell, hencode] at hvalues
      cases hvalues
      cases h
      have hcells : (Expr.link v .none (.loaded (.symbol tag))).cells =
          [.link v .none (.loaded (.symbol tag)), .bytes data, .symbol tag] := by
        rw [Expr.cells, payloadCells, hpayload]
        rfl
      rw [hcells]
      refine ⟨fun c hc => by simp at hc ⊢; tauto, fun c hc => ?_⟩
      have hsymbol : isKnownType blake3 ((Expr.symbol tag).hash blake3) :=
        isKnownType_iff.mpr ⟨tag, (tagByteDecode_encode hholds).1, rfl⟩
      rcases List.mem_cons.mp hc with rfl | hc
      · exact .inr List.mem_cons_self
      rcases List.mem_cons.mp hc with rfl | hc
      · exact .inr (List.mem_cons_of_mem _ List.mem_cons_self)
      · rw [List.mem_singleton.mp hc]
        exact .inl hsymbol
  | nil => exact hterminal _ rfl h
  | symbol s => exact hterminal _ rfl h
  | bytes b => exact hterminal _ rfl h
  | bytesOf e => exact hloaded.elim

theorem walkChild_ok (ch : Child) (hloaded : ch.Loaded)
    (htype : ∀ c ∈ ch.cells, ∀ tag ∈ builtinCompositeTypeNames,
      (wireOf blake3 c).hash blake3 = terminalHash blake3 1 (utf8 tag) → c = .symbol tag)
    {cells : List Expr} (h : walkChild blake3 ch = .ok cells) :
    (∀ c ∈ cells, c ∈ ch.cells) ∧
      ∀ c ∈ ch.cells, isKnownType blake3 (c.hash blake3) ∨ c ∈ cells := by
  cases ch with
  | loaded e => exact walkCells_ok e hloaded htype h
  | none =>
    cases h
    exact ⟨fun _ h => h, fun _ h => absurd h List.not_mem_nil⟩
  | byHash x => exact hloaded.elim

end

/-- Every cell of the tree is found under its hash among the cells that were sent. -/
theorem lookup_cell {root : Expr} {sent : List Expr} (hloaded : root.Loaded)
    (hdistinct : CellsDistinct blake3 root) (hsent : ∀ c ∈ sent, c ∈ root.cells)
    (hcover : ∀ c ∈ root.cells, isKnownType blake3 (c.hash blake3) ∨
      ∃ c' ∈ sent, c'.hash blake3 = c.hash blake3)
    {c : Expr} (hc : c ∈ root.cells) (hnil : c ≠ .nil) :
    lookupPair (c.hash blake3) (exprMap blake3 (sent.map (wireOf blake3))) =
      some (wireOf blake3 c) := by
  have hcells := Expr.cells_loaded root hloaded
  have hwire := @hash_wireOf blake3 c hnil (hcells c hc)
  rw [exprMap, lookupPair_append]
  rcases hknown : lookupPair (c.hash blake3) (knownTypeExprs blake3) with _ | known
  · have hunknown : ¬isKnownType blake3 (c.hash blake3) := by
      intro h
      obtain ⟨tag, htag, hhash⟩ := isKnownType_iff.mp h
      refine lookupPair_eq_none.mp hknown (List.mem_map.mpr ⟨_, List.mem_map.mpr ⟨tag, htag, rfl⟩, ?_⟩)
      exact hhash
    obtain ⟨c', hc', hhash⟩ := (hcover c hc).resolve_left hunknown
    have hnil' : c' ≠ .nil := by
      rintro rfl
      exact hnil (hdistinct.nil c hc hhash.symm)
    have hwire' := @hash_wireOf blake3 c' hnil' (hcells c' (hsent c' hc'))
    rw [Option.none_or]
    rcases hfound : lookupPair (c.hash blake3) ((sent.map (wireOf blake3)).map
      fun e => (e.hash blake3, e)).reverse with _ | found
    · refine absurd (lookupPair_eq_none.mp hfound) (not_not.mpr ?_)
      refine List.mem_map.mpr ⟨(_, wireOf blake3 c'), List.mem_reverse.mpr ?_, hwire'.trans hhash⟩
      exact List.mem_map.mpr ⟨_, List.mem_map.mpr ⟨c', hc', rfl⟩, rfl⟩
    · obtain ⟨e, he, hpair⟩ := List.mem_map.mp (List.mem_reverse.mp (mem_of_lookupPair hfound))
      obtain ⟨c₃, hc₃, rfl⟩ := List.mem_map.mp he
      obtain ⟨hkey, rfl⟩ := Prod.mk.inj hpair
      rw [hfound, hdistinct.wire c₃ (hsent c₃ hc₃) c hc (hkey.trans hwire.symm)]
  · obtain ⟨tag, htag, hpair⟩ := List.mem_map.mp (mem_of_lookupPair hknown)
    obtain ⟨hkey, rfl⟩ := Prod.mk.inj hpair
    rw [hdistinct.type c hc tag htag (hwire.trans hkey.symm)]
    rfl

section Linking

variable {cells : List (Bytes × Expr)}

mutual

/-- A tree whose cells are all found is linked. -/
theorem linkTree_wireOf (e : Expr) (hloaded : e.Loaded)
    (hfound : ∀ c ∈ e.cells, c ≠ .nil →
      lookupPair (c.hash blake3) cells = some (wireOf blake3 c))
    (hzero : ∀ c ∈ e.cells, c.hash blake3 = zero32 → c = .nil) (hne : e ≠ .nil) {n : Nat}
    (hn : e.linkDepth < n) : linkTree blake3 cells n (wireOf blake3 e) = .ok (linkedOf blake3 e) := by
  obtain ⟨n, rfl⟩ : ∃ m, n = m + 1 := ⟨n - 1, by omega⟩
  cases e with
  | nil => exact absurd rfl hne
  | bytesOf e => exact hloaded.elim
  | symbol s => rfl
  | bytes b => rfl
  | link v hd tl =>
    have hhash : (Expr.link .none (.byHash ((Expr.link v hd tl).getHeadHash blake3))
        (.byHash ((Expr.link v hd tl).getTailHash blake3))).hash blake3 =
        (Expr.link v hd tl).hash blake3 := @hash_wireOf blake3 (.link v hd tl) hne hloaded
    have hdepth : hd.linkDepth < n ∧ tl.linkDepth < n := by
      rw [Expr.linkDepth] at hn
      omega
    have htailCells : ∀ c ∈ tl.cells, c ∈ (Expr.link v hd tl).cells := fun c hc =>
      List.mem_cons_of_mem _ (List.mem_append_right _ (List.mem_append_right _ hc))
    have htail : tl.Loaded → linkChild cells (linkTree blake3 cells n) .absent
        (.byHash (tl.hash blake3)) = .ok (linkedChild blake3 .absent tl) := fun htl =>
      linkChild_hash tl htl (fun c hc => hfound c (htailCells c hc))
        (fun c hc => hzero c (htailCells c hc)) .absent hdepth.2
    have htailHash : (Expr.link v hd tl).getTailHash blake3 = tl.hash blake3 := rfl
    have hwire : wireOf blake3 (.link v hd tl) =
        .link .none (.byHash ((Expr.link v hd tl).getHeadHash blake3))
          (.byHash ((Expr.link v hd tl).getTailHash blake3)) := rfl
    rw [hwire, linkTree, hhash, linkedOf, htailHash]
    rcases hloaded with ⟨rfl, hhd, htl⟩ | ⟨rfl, tag, rfl, hholds⟩
    · have hheadCells : ∀ c ∈ hd.cells, c ∈ (Expr.link .none hd tl).cells := fun c hc =>
        List.mem_cons_of_mem _ (List.mem_append_left _ hc)
      have hheadHash : (Expr.link .none hd tl).getHeadHash blake3 = hd.hash blake3 := by
        cases hd <;> simp [Expr.getHeadHash, Expr.headChild, Expr.value, Expr.tailChild, payload_none,
          Child.hash]
      have hhead : linkChild cells (linkTree blake3 cells n) .nil (.byHash (hd.hash blake3)) =
          .ok (linkedChild blake3 .nil hd) :=
        linkChild_hash hd hhd (fun c hc => hfound c (hheadCells c hc))
          (fun c hc => hzero c (hheadCells c hc)) .nil hdepth.1
      rw [hheadHash, hhead, htail htl, payload_none]
      rfl
    · obtain ⟨data, hpayload, -, -⟩ := payload_of_holds hholds
      have hheadHash : (Expr.link v .none (.loaded (.symbol tag))).getHeadHash blake3 =
          (Expr.bytes data).hash blake3 := by
        simp [Expr.getHeadHash, Expr.headChild, Expr.value, Expr.tailChild, hpayload, Expr.hash]
      have hdata : Expr.bytes data ∈ (Expr.link v .none (.loaded (.symbol tag))).cells := by
        rw [Expr.cells, payloadCells, hpayload]
        simp
      have hhead : linkChild cells (linkTree blake3 cells n) .nil
          (.byHash ((Expr.bytes data).hash blake3)) =
          .ok (.bytes (terminalHash blake3 2 data) data) := by
        have hnonzero : (Expr.bytes data).hash blake3 ≠ zero32 := fun h => by
          cases hzero _ hdata h
        obtain ⟨m, rfl⟩ : ∃ m, n = m + 1 := ⟨n - 1, by omega⟩
        rw [linkChild, if_neg hnonzero, hfound _ hdata nofun]
        rfl
      rw [hheadHash, hhead, htail trivial, hpayload]
      rfl

theorem linkChild_hash (ch : Child) (hloaded : ch.Loaded)
    (hfound : ∀ c ∈ ch.cells, c ≠ .nil →
      lookupPair (c.hash blake3) cells = some (wireOf blake3 c))
    (hzero : ∀ c ∈ ch.cells, c.hash blake3 = zero32 → c = .nil) (zero : Linked) {n : Nat}
    (hn : ch.linkDepth < n) :
    linkChild cells (linkTree blake3 cells n) zero (.byHash (ch.hash blake3)) =
      .ok (linkedChild blake3 zero ch) := by
  cases ch with
  | none => rfl
  | byHash x => exact hloaded.elim
  | loaded e =>
    have hhash : (Child.loaded e).hash blake3 = e.hash blake3 := rfl
    rw [linkedChild, linkChild, hhash]
    by_cases hnil : e = .nil
    · subst hnil
      exact if_pos rfl
    · have hnonzero : e.hash blake3 ≠ zero32 := fun h => hnil (hzero e (Expr.mem_cells e) h)
      rw [if_neg hnonzero, if_neg hnil, hfound e (Expr.mem_cells e) hnil]
      exact linkTree_wireOf e hloaded hfound hzero hnil hn

end

end Linking

section Values

theorem typedPair_eq_some {h t : Child} {b : Bytes} {tag : String}
    (hpair : typedPair? h t = some (b, tag)) : h = .loaded (.bytes b) ∧ t = .loaded (.symbol tag) ∧
      tag ∈ builtinCompositeTypeNames := by
  rw [typedPair?.eq_def] at hpair
  split at hpair
  · split at hpair
    · rename_i htag
      cases hpair
      exact ⟨rfl, rfl, htag⟩
    · cases hpair
  · cases hpair

/-- A cell that is no value is read as its parts are. -/
theorem reconstruct_link {hash : Bytes} {v : Val} {h t : Linked}
    (hpair : ∀ x b y tag, h = .bytes x b → t = .symbol y tag → tag ∉ builtinCompositeTypeNames) :
    reconstruct (.link hash v h t) =
      (do return .link hash v (← reconstruct h) (← reconstruct t)) := by
  cases h with
  | bytes x b => cases t with
    | symbol y tag => rw [reconstruct, if_neg (hpair x b y tag rfl rfl)]; rfl
    | _ => rfl
  | _ => rfl

theorem linkedChild_eq_bytes {zero : Linked} {ch : Child} {x b : Bytes}
    (hzero : ∀ x b, zero ≠ .bytes x b) (hloaded : ch.Loaded)
    (h : linkedChild blake3 zero ch = .bytes x b) : ch = .loaded (.bytes b) := by
  cases ch with
  | loaded e =>
    rw [linkedChild] at h
    split at h
    · exact absurd h (hzero x b)
    · cases e <;> cases h
      rfl
  | none => exact absurd h (hzero x b)
  | byHash y => exact hloaded.elim

theorem linkedChild_eq_symbol {zero : Linked} {ch : Child} {x : Bytes} {tag : String}
    (hzero : ∀ x s, zero ≠ .symbol x s) (hloaded : ch.Loaded)
    (h : linkedChild blake3 zero ch = .symbol x tag) : ch = .loaded (.symbol tag) := by
  cases ch with
  | loaded e =>
    rw [linkedChild] at h
    split at h
    · exact absurd h (hzero x tag)
    · cases e <;> cases h
      rfl
  | none => exact absurd h (hzero x tag)
  | byHash y => exact hloaded.elim

mutual

/-- The reconstruction turns every bytes cell under a type into its value. -/
theorem reconstruct_linkedOf (e : Expr) (hloaded : e.Loaded) :
    reconstruct (linkedOf blake3 e) = Linked.ofExpr blake3 e := by
  cases e with
  | nil => rfl
  | symbol s => rfl
  | bytes b => rfl
  | bytesOf e => exact hloaded.elim
  | link v hd tl =>
    rw [linkedOf, Linked.ofExpr]
    rcases hloaded with ⟨rfl, hhd, htl⟩ | ⟨rfl, tag, rfl, hholds⟩
    · rw [payload_none]
      dsimp only
      rcases hpair : typedPair? hd tl with _ | ⟨b, tag⟩
      · have hno : ∀ x b y tag, linkedChild blake3 .nil hd = .bytes x b →
            linkedChild blake3 .absent tl = .symbol y tag → tag ∉ builtinCompositeTypeNames := by
          intro x b y tag hhead htail htag
          have hb := @linkedChild_eq_bytes blake3 .nil hd x b nofun hhd hhead
          have hs := @linkedChild_eq_symbol blake3 .absent tl y tag nofun htl htail
          rw [hb, hs, typedPair?, if_pos htag] at hpair
          cases hpair
        rw [reconstruct_link hno, reconstruct_linkedChild hd hhd .nil rfl,
          reconstruct_linkedChild tl htl .absent rfl]
        rfl
      · obtain ⟨rfl, rfl, htag⟩ := typedPair_eq_some hpair
        have hhead : linkedChild blake3 .nil (.loaded (.bytes b)) =
            .bytes (terminalHash blake3 2 b) b := rfl
        have htail : linkedChild blake3 .absent (.loaded (.symbol tag)) =
            .symbol (terminalHash blake3 1 (utf8 tag)) tag := rfl
        rw [hhead, htail, reconstruct, if_pos htag]
    · obtain ⟨data, hpayload, -, hdecode⟩ := payload_of_holds hholds
      have htail : linkedChild blake3 .absent (.loaded (.symbol tag)) =
          .symbol (terminalHash blake3 1 (utf8 tag)) tag := rfl
      have hv : v ≠ .none := by
        rintro rfl
        cases hholds
      rw [hpayload]
      dsimp only
      rw [htail, reconstruct, if_pos (tagByteDecode_encode hholds).1, hdecode]
      simp only [typedPair?, if_neg hv]
      rfl

theorem reconstruct_linkedChild (ch : Child) (hloaded : ch.Loaded) (zero : Linked)
    (hzero : reconstruct zero = .ok zero) :
    reconstruct (linkedChild blake3 zero ch) = Linked.ofChild blake3 zero ch := by
  cases ch with
  | none => exact hzero
  | byHash x => exact hloaded.elim
  | loaded e =>
    rw [linkedChild, Linked.ofChild]
    split
    · exact hzero
    · exact reconstruct_linkedOf e hloaded

end

mutual

/-- A tree is read exactly when its types read the bytes cells under them. -/
theorem isOk_ofExpr (e : Expr) (hloaded : e.Loaded) :
    (Linked.ofExpr blake3 e).isOk = e.decodes := by
  cases e with
  | nil => rfl
  | symbol s => rfl
  | bytes b => rfl
  | bytesOf e => exact hloaded.elim
  | link v hd tl =>
    have hparts : hd.Loaded ∧ tl.Loaded := by
      rcases hloaded with ⟨-, hhd, htl⟩ | ⟨rfl, tag, rfl, -⟩
      · exact ⟨hhd, htl⟩
      · exact ⟨trivial, trivial⟩
    rw [Linked.ofExpr, Expr.decodes]
    rcases typedPair? hd tl with _ | ⟨b, tag⟩
    · have hhead := isOk_ofChild hd hparts.1 (if v = .none then .nil else .absent)
      have htail := isOk_ofChild tl hparts.2 .absent
      rw [← hhead, ← htail]
      dsimp only
      rcases Linked.ofChild blake3 (if v = .none then .nil else .absent) hd with _ | head
      · rfl
      rcases Linked.ofChild blake3 .absent tl with _ | tail <;> rfl
    · dsimp only
      rcases tagByteDecode tag b with _ | value <;> rfl

theorem isOk_ofChild (ch : Child) (hloaded : ch.Loaded) (zero : Linked) :
    (Linked.ofChild blake3 zero ch).isOk = ch.decodes := by
  cases ch with
  | none => rfl
  | byHash x => exact hloaded.elim
  | loaded e =>
    rw [Linked.ofChild]
    split
    · rename_i hnil
      rw [hnil]
      rfl
    · exact isOk_ofExpr e hloaded

end

end Values

end Trees

section Transactions

variable {blake3 : Bytes → Bytes}

theorem ofChild_nil_ne_absent {e : Expr} {l : Linked}
    (h : Linked.ofChild blake3 .nil (.loaded e) = .ok l) : l ≠ .absent := by
  rw [Linked.ofChild] at h
  split at h
  · cases h
    exact nofun
  · cases e with
    | nil => cases h; exact nofun
    | symbol s => cases h; exact nofun
    | bytes b => cases h; exact nofun
    | bytesOf e => cases h
    | link v hd tl =>
      rw [Linked.ofExpr] at h
      split at h
      · rename_i b tag hpair
        rcases hdecode : tagByteDecode tag b with err | value <;> rw [hdecode] at h
        · cases h
        · cases h
          exact nofun
      · obtain ⟨head, -, h⟩ := except_bind_eq_ok.mp h
        obtain ⟨tail, -, h⟩ := except_bind_eq_ok.mp h
        cases h
        exact nofun

/-- A link that is no value is read as the link of its parts. -/
theorem ofChild_link (zero : Linked) {hd tl : Expr} {head tail : Linked}
    (hpair : typedPair? (.loaded hd) (.loaded tl) = none)
    (hhead : Linked.ofChild blake3 .nil (.loaded hd) = .ok head)
    (htail : Linked.ofChild blake3 .absent (.loaded tl) = .ok tail) :
    Linked.ofChild blake3 zero (.loaded (link hd tl)) =
      .ok (.link ((link hd tl).hash blake3) .none head tail) := by
  rw [Linked.ofChild, if_neg nofun, link, Linked.ofExpr, hpair]
  simp only [if_pos, hhead, htail]
  rfl

theorem typedPair_list (e : Expr) (items : List Expr) :
    typedPair? (.loaded e) (.loaded (exprsToLinkedExpr items)) = none := by
  cases items <;> cases e <;> rfl

/-- A list is read as the list of its items. -/
theorem ofChild_list {items : List (Expr × Linked)}
    (hread : ∀ p ∈ items, Linked.ofChild blake3 .nil (.loaded p.1) = .ok p.2) :
    ∃ l, Linked.ofChild blake3 .absent (.loaded (exprsToLinkedExpr (items.map Prod.fst))) = .ok l ∧
      l.items = items.map Prod.snd := by
  induction items with
  | nil => exact ⟨.absent, rfl, rfl⟩
  | cons p items ih =>
    obtain ⟨tail, htail, hitems⟩ := ih fun p hp => hread p (List.mem_cons_of_mem _ hp)
    have hhead := hread p List.mem_cons_self
    refine ⟨_, ofChild_link .absent (typedPair_list _ _) hhead htail, ?_⟩
    rw [Linked.items, if_neg (ofChild_nil_ne_absent hhead), hitems]
    rfl

theorem ofChild_bytes (b : Bytes) : Linked.ofChild blake3 .nil (.loaded (.bytes b)) =
    .ok (.bytes (terminalHash blake3 2 b) b) := rfl

/-- The cell of an integer as it is read. -/
def linkedInt (blake3 : Bytes → Bytes) (n : Int) : Linked :=
  .link ((int_ n).hash blake3) (.int n) .absent (.symbol (terminalHash blake3 1 (utf8 "int")) "int")

theorem ofChild_int (n : Int) :
    Linked.ofChild blake3 .nil (.loaded (int_ n)) = .ok (linkedInt blake3 n) := by
  rw [Linked.ofChild, if_neg nofun]
  rfl

/-- What a message should give for a transaction. -/
structure MessageTransaction.Reads (blake3 : Bytes → Bytes) (t' : MessageTransaction)
    (t : Transaction) : Prop where
  chainId : t'.chainId = .int t.chainId
  amount : t'.amount = .int t.amount
  code : t'.code = t.code
  counter : t'.counter = .int t.counter
  costLimit : t'.costLimit = .int t.costLimit
  data : Linked.ofChild blake3 .nil (.loaded t.data) = .ok t'.data
  recipient : t'.recipient = t.recipient
  sender : t'.sender = t.sender
  signature : t'.signature = if t.signature = [] then zero32 else t.signature
  bodyHash : t'.bodyHash = t.body.hash blake3
  hash : t'.hash = t.toExpr.hash blake3

/-- A tree of the form of a transaction is parsed into its fields. -/
theorem parseTransaction_fields {t : Transaction} {data fields last tail : Linked}
    {rootHash headerHash bodyHash recipientHash senderHash sigHash signature : Bytes}
    (hfields : fields.items = [linkedInt blake3 t.chainId, linkedInt blake3 t.code.value,
      linkedInt blake3 t.costLimit, linkedInt blake3 t.counter, data,
      .bytes recipientHash t.recipient, .bytes senderHash t.sender])
    (hlast : last.items = [.bytes sigHash signature]) :
    let body := Linked.link bodyHash .none (linkedInt blake3 t.amount) fields
    let root := Linked.link rootHash .none (.link headerHash .none body last) tail
    parseTransaction root = .ok ⟨.int t.chainId, .int t.amount, t.code, .int t.counter,
      .int t.costLimit, data, t.recipient, t.sender, signature, bodyHash, rootHash, root⟩ := by
  intro body root
  have hbodyItems : body.items = linkedInt blake3 t.amount :: fields.items := rfl
  have hheaderItems : root.head.items = body :: last.items := rfl
  have hcode : transactionCodeOf (linkedInt blake3 t.code.value).value = .ok t.code :=
    TransactionCode.ofInt_value t.code
  have hints : integerCells [linkedInt blake3 t.amount, linkedInt blake3 t.chainId,
      linkedInt blake3 t.code.value, linkedInt blake3 t.costLimit,
      linkedInt blake3 t.counter] = true := rfl
  have hhead : root.head.isLink = true := rfl
  have hbody : body.isLink = true := rfl
  rw [parseTransaction, hhead, hheaderItems, hlast]
  simp only [hbody, hbodyItems, hfields, hints, hcode]
  rfl

/-- The cells of a transaction are parsed into its fields. -/
theorem parseTransaction_toExpr {t : Transaction} {data : Linked}
    (hdata : Linked.ofChild blake3 .nil (.loaded t.data) = .ok data) :
    ∃ root t', Linked.ofExpr blake3 t.toExpr = .ok root ∧
      (∃ hash, root.tail = .symbol hash "transaction") ∧ parseTransaction root = .ok t' ∧
      t'.Reads blake3 t := by
  let bytesCell := fun b : Bytes => (Expr.bytes b, Linked.bytes (terminalHash blake3 2 b) b)
  let intCell := fun n : Int => (int_ n, linkedInt blake3 n)
  obtain ⟨fields, hfields, items⟩ := @ofChild_list blake3
    [intCell t.chainId, intCell t.code.value, intCell t.costLimit, intCell t.counter,
      (t.data, data), bytesCell t.recipient, bytesCell t.sender] (by
        simp [intCell, bytesCell, ofChild_int, hdata, ofChild_bytes])
  obtain ⟨last, hlast, lastItems⟩ := @ofChild_list blake3
    [bytesCell (if t.signature = [] then zero32 else t.signature)] (by
      simp [bytesCell, ofChild_bytes])
  have hbody := ofChild_link .nil (typedPair_list _ _) (ofChild_int t.amount) hfields
  have hheader := ofChild_link .nil (typedPair_list _ _) hbody hlast
  have hroot := @ofChild_link blake3 .nil _ (.symbol "transaction") _ _ rfl hheader rfl
  exact ⟨_, _, hroot, ⟨_, rfl⟩, parseTransaction_fields items lastItems,
    ⟨rfl, rfl, rfl, rfl, rfl, hdata, rfl, rfl, rfl, rfl, rfl⟩⟩

theorem loaded_link {hd tl : Expr} (hhd : hd.Loaded) (htl : tl.Loaded) : (link hd tl).Loaded :=
  .inl ⟨rfl, hhd, htl⟩

theorem loaded_int (n : Int) : (int_ n).Loaded := .inr ⟨rfl, "int", rfl, rfl⟩

theorem loaded_list {items : List Expr} (h : ∀ e ∈ items, e.Loaded) :
    (exprsToLinkedExpr items).Loaded := by
  induction items with
  | nil => trivial
  | cons e items ih =>
    exact loaded_link (h e List.mem_cons_self) (ih fun e he => h e (List.mem_cons_of_mem _ he))

theorem loaded_toExpr {t : Transaction} (h : t.data.Loaded) : t.toExpr.Loaded := by
  have hbody : t.body.Loaded := by
    refine @loaded_list [int_ t.amount, int_ t.chainId, int_ t.code.value, int_ t.costLimit,
      int_ t.counter, t.data, .bytes t.recipient, .bytes t.sender] ?_
    simp [loaded_int, h, Expr.Loaded]
  exact loaded_link (loaded_link hbody (loaded_link trivial trivial)) trivial

/-- The cells that are sent are those of the tree, the root first and each under its hash. -/
theorem sent_cells {root : Expr} {content : Bytes} (hdigest : ∀ x, (blake3 x).length = 32)
    (hloaded : root.Loaded) (hdistinct : CellsDistinct blake3 root) (hlink : root.base = .link)
    (hnil : root ≠ .nil) (h : encodeTransactionMessage blake3 root = .ok content) :
    ∃ sent : List Expr,
      decodeFoundPage content = .ok (1, 1, wireOf blake3 root :: sent.map (wireOf blake3)) ∧
      ∀ c ∈ root.cells, c ≠ .nil → lookupPair (c.hash blake3)
        (exprMap blake3 (wireOf blake3 root :: sent.map (wireOf blake3))) =
          some (wireOf blake3 c) := by
  rw [encodeTransactionMessage] at h
  obtain ⟨cells, hcells, h⟩ := except_bind_eq_ok.mp h
  obtain ⟨hne, hpage⟩ := encodeSinglePage_eq_ok h
  obtain ⟨hin, hall⟩ := walkCells_ok root hloaded hdistinct.type hcells
  have hroot : ∃ rest, cells = root :: rest := by
    cases root with
    | link v hd tl =>
      rw [walkCells] at hcells
      split at hcells
      · cases hcells
        exact absurd rfl hne
      split at hcells
      · obtain ⟨values, -, hcells⟩ := except_bind_eq_ok.mp hcells
        cases hcells
        exact ⟨_, rfl⟩
      · obtain ⟨heads, -, hcells⟩ := except_bind_eq_ok.mp hcells
        obtain ⟨tails, -, hcells⟩ := except_bind_eq_ok.mp hcells
        cases hcells
        exact ⟨_, rfl⟩
    | nil => exact absurd rfl hnil
    | symbol s => cases hlink
    | bytes b => cases hlink
    | bytesOf e => cases hlink
  obtain ⟨rest, rfl⟩ := hroot
  have hadd : addCells blake3 [] (root :: rest) =
      root :: addCells blake3 [root.hash blake3] rest := by
    rw [addCells, if_neg List.not_mem_nil]
  have hsent : ∀ c ∈ addCells blake3 [] (root :: rest), c ∈ root.cells :=
    fun c hc => hin c (mem_of_addCells hc)
  have hcover : ∀ c ∈ root.cells, isKnownType blake3 (c.hash blake3) ∨
      ∃ c' ∈ addCells blake3 [] (root :: rest), c'.hash blake3 = c.hash blake3 := by
    intro c hc
    rcases hall c hc with hknown | hc
    · exact .inl hknown
    · exact .inr ((addCells_covers hc).resolve_left List.not_mem_nil)
  have hcells := forall₂_decode fun e he =>
    decode_cell hdigest (Expr.cells_loaded root hloaded e (hsent e he))
  have hread := decodeFoundPage_buildPage one_ne_zero le_rfl (by simpa using hne) hcells hpage
  refine ⟨addCells blake3 [root.hash blake3] rest, ?_, fun c hc hnil => ?_⟩
  · rw [hread, hadd, List.map_cons]
  · have hfound := lookup_cell hloaded hdistinct hsent hcover hc hnil
    rwa [hadd, List.map_cons] at hfound

/-- A message is read as the tree that it was written from. -/
theorem decode_encode {t : Transaction} {content : Bytes} {fuel : Nat}
    (hdigest : ∀ x, (blake3 x).length = 32) (hdistinct : CellsDistinct blake3 t.toExpr)
    (hloaded : t.data.Loaded) (hcontent : encodeTransactionMessage blake3 t.toExpr = .ok content)
    (hfuel : t.toExpr.linkDepth < fuel) :
    decodeTransactionMessage blake3 fuel content = (do
      let root ← Linked.ofExpr blake3 t.toExpr
      match root.tail with
      | .symbol _ "transaction" => return (parseTransaction root).toOption
      | _ => return none) := by
  have hroot := loaded_toExpr hloaded
  obtain ⟨sent, hpage, hfound⟩ :=
    sent_cells hdigest hroot hdistinct rfl nofun hcontent
  have hlinked := linkTree_wireOf t.toExpr hroot hfound hdistinct.nil nofun hfuel
  rw [decodeTransactionMessage, hpage]
  simp only [hlinked, reconstruct_linkedOf t.toExpr hroot]
  rfl

/-- A message of one page gives back the transaction that it was made of, when the types in its data
read the bytes cells under them. A transaction without signature comes back with 32 zero bytes. -/
theorem message_round_trip {t : Transaction} {content : Bytes} {fuel : Nat}
    (hdigest : ∀ x, (blake3 x).length = 32) (hdistinct : CellsDistinct blake3 t.toExpr)
    (hloaded : t.data.Loaded) (hdecodes : t.data.decodes)
    (hcontent : encodeTransactionMessage blake3 t.toExpr = .ok content)
    (hfuel : t.toExpr.linkDepth < fuel) :
    ∃ t', decodeTransactionMessage blake3 fuel content = .ok (some t') ∧ t'.Reads blake3 t := by
  have hok : (Linked.ofChild blake3 .nil (.loaded t.data)).isOk := by
    rw [isOk_ofChild (.loaded t.data) hloaded]
    exact hdecodes
  rcases hdata : Linked.ofChild blake3 .nil (.loaded t.data) with err | data
  · rw [hdata] at hok
    cases hok
  obtain ⟨root, t', hread, ⟨hash, htail⟩, hparse, hreads⟩ := parseTransaction_toExpr hdata
  refine ⟨t', ?_, hreads⟩
  rw [decode_encode hdigest hdistinct hloaded hcontent hfuel, hread]
  have hkeep : (do
      let root ← (.ok root : Py Linked)
      match root.tail with
      | .symbol _ "transaction" => return (parseTransaction root).toOption
      | _ => return none) = (match root.tail with
        | .symbol _ "transaction" => .ok (parseTransaction root).toOption
        | _ => .ok none : Py (Option MessageTransaction)) := rfl
  rw [hkeep, htail, hparse]
  rfl

theorem decodes_link {hd tl : Expr} (hpair : typedPair? (.loaded hd) (.loaded tl) = none) :
    (link hd tl).decodes = (hd.decodes && tl.decodes) := by
  rw [link, Expr.decodes, hpair]
  rfl

theorem decodes_list (items : List Expr) :
    (exprsToLinkedExpr items).decodes = items.all Expr.decodes := by
  induction items with
  | nil => rfl
  | cons e items ih =>
    have hcons : exprsToLinkedExpr (e :: items) = link e (exprsToLinkedExpr items) := rfl
    rw [hcons, decodes_link (typedPair_list e items), ih, List.all_cons]

theorem decodes_toExpr (t : Transaction) : t.toExpr.decodes = t.data.decodes := by
  have hbody : t.body.decodes = t.data.decodes := by
    have hlist := decodes_list [int_ t.amount, int_ t.chainId, int_ t.code.value,
      int_ t.costLimit, int_ t.counter, t.data, .bytes t.recipient, .bytes t.sender]
    have hint : ∀ n, (int_ n).decodes = true := fun n => rfl
    have hbytes : ∀ b, (Expr.bytes b).decodes = true := fun b => rfl
    simp only [List.all_cons, List.all_nil, hint, hbytes, Bool.true_and, Bool.and_true] at hlist
    exact hlist
  have hheader : ∀ b, (link t.body (link (.bytes b) .nil)).decodes = t.data.decodes := by
    intro b
    have hpair : typedPair? (.loaded t.body) (.loaded (link (.bytes b) .nil)) = none := rfl
    rw [decodes_link hpair, hbody]
    exact Bool.and_true _
  rw [Transaction.toExpr, decodes_link rfl, hheader]
  exact Bool.and_true _

/-- Where a type does not read the bytes cell under it, reading the message raises. -/
theorem message_raises {t : Transaction} {content : Bytes} {fuel : Nat}
    (hdigest : ∀ x, (blake3 x).length = 32) (hdistinct : CellsDistinct blake3 t.toExpr)
    (hloaded : t.data.Loaded) (hdecodes : t.data.decodes = false)
    (hcontent : encodeTransactionMessage blake3 t.toExpr = .ok content)
    (hfuel : t.toExpr.linkDepth < fuel) :
    ∃ err, decodeTransactionMessage blake3 fuel content = .error err := by
  have hok := @isOk_ofExpr blake3 t.toExpr (loaded_toExpr hloaded)
  rw [decodes_toExpr, hdecodes] at hok
  rw [decode_encode hdigest hdistinct hloaded hcontent hfuel]
  rcases hread : Linked.ofExpr blake3 t.toExpr with err | root
  · exact ⟨err, rfl⟩
  · rw [hread] at hok
    cases hok

section Samples

/-- A transfer with some data. -/
def transferWith (data : Expr) (signature : Bytes) : Transaction where
  chainId := 1
  amount := -5
  code := .transfer
  counter := 300
  costLimit := 0
  data := data
  recipient := []
  sender := List.replicate 32 1
  signature := signature
  hash := none
  cell := none
  pendingBloomKeys := []
  pendingBloomInserts := []

/-- A typed-looking pair, a value of the same text, nil in the head and a shared cell. -/
def mixedData : Expr :=
  link (link (.bytes (utf8 "hi")) (.symbol "str")) (link .nil (link (str_ "hi") (str_ "hi")))

def contentOf (t : Transaction) : Bytes :=
  (encodeTransactionMessage sampleDigest t.toExpr).toOption.getD []

theorem mixed_data_round_trip :
    ∃ t', decodeTransactionMessage sampleDigest 20 (contentOf (transferWith mixedData [9])) =
      .ok (some t') ∧ t'.Reads sampleDigest (transferWith mixedData [9]) := by
  have hcontent : encodeTransactionMessage sampleDigest (transferWith mixedData [9]).toExpr =
      .ok (contentOf (transferWith mixedData [9])) := by decide +kernel
  have hdigest : ∀ x, (sampleDigest x).length = 32 := fun x => by simp [sampleDigest]
  have hloaded : mixedData.Loaded :=
    loaded_link (loaded_link trivial trivial) (loaded_link trivial
      (loaded_link (.inr ⟨rfl, "str", rfl, rfl⟩) (.inr ⟨rfl, "str", rfl, rfl⟩)))
  have hdistinct : CellsDistinct sampleDigest (transferWith mixedData [9]).toExpr :=
    ⟨by decide +kernel, by decide +kernel, by decide +kernel⟩
  exact message_round_trip hdigest hdistinct hloaded (by decide +kernel) hcontent
    (by decide +kernel)

/-- The byte 255 is no text. -/
def pairOfNoText : Expr := link (.bytes [255]) (.symbol "str")

/-- A message whose data has bytes under the type of texts that are no text raises, and an unsigned
transaction comes back signed. -/
theorem untyped_pair_raises :
    (encodeTransactionMessage sampleDigest (transferWith pairOfNoText [9]).toExpr =
        .ok (contentOf (transferWith pairOfNoText [9]))) ∧
    (decodeTransactionMessage sampleDigest 20 (contentOf (transferWith pairOfNoText [9])) =
        .error .valueError) ∧
    (decodeTransactionMessage sampleDigest 20 (contentOf (transferWith .nil []))).map
        (Option.map MessageTransaction.signature) = .ok (some zero32) := by
  decide +kernel

end Samples

end Transactions

end Astreum

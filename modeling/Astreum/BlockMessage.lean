import Astreum.BlockCodec
import Astreum.BlockSearch
import Astreum.FoundPages
import Astreum.Providers
import Astreum.Requests

namespace Astreum

section Header

variable (blake3 : Bytes → Bytes)

/-- The type of a cell that holds its value inline, as `block_header_exprs` finds it. -/
def headerTag? (v : Val) (h t : Child) : Option String :=
  match h, t with
  | .none, .loaded (.symbol tag) =>
    if v ≠ .none ∧ tag ∈ builtinTypeNames then some tag else none
  | _, _ => none

def addHeaderCell (result : List Expr) (e : Expr) : List Expr :=
  if e.hash blake3 ∈ result.map (Expr.hash blake3) then result else result ++ [e]

/-- The bytes cell of the value that a link holds inline. -/
def addHeaderValue (v : Val) (h t : Child) (result : List Expr) : Py (List Expr) :=
  match headerTag? v h t with
  | some tag => do return (← valueCell v tag).foldl (addHeaderCell blake3) result
  | none => .ok result

mutual

/-- The walk of `block_header_exprs`, with the recursion for its stack: the head of a link comes
first, then its tail, then the bytes cell of its value. -/
def visitHeader : Expr → List Expr → Py (List Expr)
  | .link v h t, result =>
    if (Expr.link v h t).hash blake3 ∈ result.map (Expr.hash blake3) then .ok result
    else do
      let result ← visitHeaderChild h (result ++ [.link v h t])
      let result ← visitHeaderChild t result
      addHeaderValue blake3 v h t result
  | e, result => .ok (addHeaderCell blake3 result e)

def visitHeaderChild : Child → List Expr → Py (List Expr)
  | .loaded e, result => visitHeader e result
  | _, result => .ok result

end

/-- `block_header_exprs`. -/
def blockHeaderExprs (blockExpr : Expr) : Py (List Expr) := visitHeader blake3 blockExpr []

/-- `encode_block_message`. -/
def encodeBlockMessage (providerPayload : Bytes) (blockExpr : Expr) : Py Bytes :=
  if providerPayload.length ≠ peerInfoBytes then .error .valueError
  else do
    let exprs ← blockHeaderExprs blake3 blockExpr
    let page ← encodeSinglePage blake3 exprs
    let payload := providerPayload ++ page
    if maxInlineMessageBytes < payload.length then throw .valueError
    return payload

end Header

/-- `decode_block_message`. -/
def decodeBlockMessage (content : Bytes) : Option (RelayEndpoint × List Expr) :=
  if content.length ≤ peerInfoBytes then none
  else
    match decodePeerInfo (content.take peerInfoBytes),
      decodeFoundPage (content.drop peerInfoBytes) with
    | .ok info, .ok (page, total, exprs) =>
      if page ≠ 1 ∨ total ≠ 1 ∨ exprs = [] then none
      else some (⟨info.relayKey, info.host, info.port⟩, exprs)
    | _, _ => none

/-- No two cells of a block have one hash. Nil, which is sent as a pair of nils, is taken for no
other cell. -/
structure HeaderApart (blake3 : Bytes → Bytes) (root : Expr) : Prop
    extends DistinctHashes blake3 root.cells where
  cell : ∀ c ∈ root.cells, ∀ c' ∈ root.cells, c.hash blake3 = c'.hash blake3 → c = c'
  pair : ∀ c ∈ root.cells, c.hash blake3 = (wireOf blake3 .nil).hash blake3 →
    c.stored blake3 = wireOf blake3 .nil

section Walking

/-- The cells that a side of a link holds. -/
def Child.held : Child → List Expr
  | .loaded e => [e]
  | _ => []

/-- The cells right below a cell. -/
def Expr.cellsBelow : Expr → List Expr
  | .link v h t => h.held ++ t.held ++ payloadCells v t
  | _ => []

variable {blake3 : Bytes → Bytes} {cells wanted wanted' result result' result'' : List Expr}
  {e : Expr} {ch : Child} {v : Val} {h t : Child}

/-- A walk adds cells once each, what is wanted among them, with all that is below those it adds. -/
structure HeaderWalk (cells wanted result result' : List Expr) : Prop where
  kept : result <+: result'
  closed : ∀ r ∈ result', r ∈ result ∨ r.cellsBelow ⊆ result'
  within : result' ⊆ cells
  nodup : result.Nodup → result'.Nodup
  wanted : wanted ⊆ result'

theorem HeaderWalk.refl (h : result ⊆ cells) : HeaderWalk cells [] result result :=
  ⟨List.prefix_rfl, fun _ hr => .inl hr, h, id, List.nil_subset _⟩

theorem HeaderWalk.trans (h : HeaderWalk cells wanted result result')
    (h' : HeaderWalk cells wanted' result' result'') :
    HeaderWalk cells (wanted ++ wanted') result result'' where
  kept := h.kept.trans h'.kept
  closed r hr := by
    cases h'.closed r hr with
    | inr hbelow => exact .inr hbelow
    | inl hr =>
      cases h.closed r hr with
      | inl hr => exact .inl hr
      | inr hbelow => exact .inr (List.Subset.trans hbelow h'.kept.subset)
  within := h'.within
  nodup hn := h'.nodup (h.nodup hn)
  wanted := List.append_subset.mpr ⟨List.Subset.trans h.wanted h'.kept.subset, h'.wanted⟩

variable (hcells : ∀ c ∈ cells, ∀ c' ∈ cells, c.hash blake3 = c'.hash blake3 → c = c')

include hcells

theorem mem_of_seen (he : e ∈ cells) (hresult : result ⊆ cells)
    (hseen : e.hash blake3 ∈ result.map (Expr.hash blake3)) : e ∈ result := by
  obtain ⟨c, hc, hhash⟩ := List.mem_map.mp hseen
  rw [hcells c (hresult hc) e he hhash] at hc
  exact hc

theorem walked_seen (he : e ∈ cells) (hresult : result ⊆ cells)
    (hseen : e.hash blake3 ∈ result.map (Expr.hash blake3)) :
    HeaderWalk cells [e] result result where
  __ := HeaderWalk.refl hresult
  wanted := List.cons_subset.mpr ⟨mem_of_seen hcells he hresult hseen, List.nil_subset _⟩

/-- A cell with nothing below it is added. -/
theorem addHeaderCell_walked (he : e ∈ cells) (hbelow : e.cellsBelow = [])
    (hresult : result ⊆ cells) :
    HeaderWalk cells [e] result (addHeaderCell blake3 result e) ∧
      (e ∈ result ∨ result ++ [e] <+: addHeaderCell blake3 result e) := by
  rw [addHeaderCell]
  by_cases hseen : e.hash blake3 ∈ result.map (Expr.hash blake3)
  · rw [if_pos hseen]
    exact ⟨walked_seen hcells he hresult hseen, .inl (mem_of_seen hcells he hresult hseen)⟩
  · rw [if_neg hseen]
    refine ⟨⟨List.prefix_append _ _, fun r hr => ?_, ?_, fun hn => ?_, ?_⟩, .inr List.prefix_rfl⟩
    · cases List.mem_append.mp hr with
      | inl hr => exact .inl hr
      | inr hr =>
        rw [List.mem_singleton.mp hr, hbelow]
        exact .inr (List.nil_subset _)
    · exact List.append_subset.mpr ⟨hresult, List.cons_subset.mpr ⟨he, List.nil_subset _⟩⟩
    · have hnew : e ∉ result := fun hmem => hseen (List.mem_map_of_mem hmem)
      exact List.nodup_append.mpr ⟨hn, List.nodup_singleton e, fun a ha b hb hab => hnew (by
        rw [← List.mem_singleton.mp hb, ← hab]
        exact ha)⟩
    · exact List.subset_append_right _ _

/-- The bytes cell of a value comes after the cells that are below its link. -/
theorem addHeaderValue_walked (hw : (Expr.link v h t).Writable)
    (hpayload : payloadCells v t ⊆ cells) (hresult : result ⊆ cells) :
    ∃ result', addHeaderValue blake3 v h t result = .ok result' ∧
      HeaderWalk cells (payloadCells v t) result result' := by
  cases hw with
  | inl hplain =>
    obtain ⟨rfl, -⟩ := hplain
    have htag : headerTag? .none h t = none := by
      cases h with
      | none =>
        cases t with
        | loaded e => cases e <;> simp [headerTag?]
        | _ => rfl
      | _ => rfl
    refine ⟨result, by rw [addHeaderValue, htag], ?_⟩
    rw [payloadCells, payload_none]
    exact HeaderWalk.refl hresult
  | inr hvalue =>
    obtain ⟨rfl, tag, rfl, hholds⟩ := hvalue
    obtain ⟨hcomposite, data, hdata, -⟩ := tagByteDecode_encode hholds
    have hv : v ≠ .none := by
      rintro rfl
      cases hholds
    have htag : headerTag? v .none (.loaded (.symbol tag)) = some tag :=
      if_pos ⟨hv, List.mem_append_left _ hcomposite⟩
    have hcell : payloadCells v (.loaded (.symbol tag)) = [.bytes data] := by
      rw [payloadCells, payload?, hdata]
    have hmem : .bytes data ∈ cells := hpayload (by rw [hcell]; exact List.mem_singleton_self _)
    refine ⟨addHeaderCell blake3 result (.bytes data), ?_, ?_⟩
    · rw [addHeaderValue, htag]
      change (valueCell v tag >>= _) = _
      rw [valueCell, hdata]
      rfl
    · rw [hcell]
      exact (addHeaderCell_walked hcells hmem rfl hresult).1

omit hcells

mutual

theorem visitHeader_walked
    (hcells : ∀ c ∈ cells, ∀ c' ∈ cells, c.hash blake3 = c'.hash blake3 → c = c')
    (e : Expr) (hw : e.Writable) (hin : e.cells ⊆ cells) (result : List Expr)
    (hresult : result ⊆ cells) :
    ∃ result', visitHeader blake3 e result = .ok result' ∧ HeaderWalk cells [e] result result' ∧
      (e ∈ result ∨ result ++ [e] <+: result') := by
  have he : e ∈ cells := hin (Expr.mem_cells e)
  cases e with
  | nil => exact ⟨_, rfl, addHeaderCell_walked hcells he rfl hresult⟩
  | symbol s => exact ⟨_, rfl, addHeaderCell_walked hcells he rfl hresult⟩
  | bytes b => exact ⟨_, rfl, addHeaderCell_walked hcells he rfl hresult⟩
  | bytesOf b => exact hw.elim
  | link v h t =>
    rw [visitHeader]
    by_cases hseen : (Expr.link v h t).hash blake3 ∈ result.map (Expr.hash blake3)
    · rw [if_pos hseen]
      exact ⟨result, rfl, walked_seen hcells he hresult hseen,
        .inl (mem_of_seen hcells he hresult hseen)⟩
    · rw [if_neg hseen]
      have hsides : h.Writable ∧ t.Writable := by
        cases hw with
        | inl hplain => exact hplain.2
        | inr hvalue =>
          obtain ⟨rfl, tag, rfl, -⟩ := hvalue
          exact ⟨trivial, trivial⟩
      have hparts := List.append_subset.mp (List.cons_subset.mp hin).2
      have hparts' := List.append_subset.mp hparts.2
      have hstart : result ++ [.link v h t] ⊆ cells :=
        List.append_subset.mpr ⟨hresult, List.cons_subset.mpr ⟨he, List.nil_subset _⟩⟩
      obtain ⟨result₁, hheads, hwalked₁⟩ :=
        visitHeaderChild_walked hcells h hsides.1 hparts.1 _ hstart
      obtain ⟨result₂, htails, hwalked₂⟩ :=
        visitHeaderChild_walked hcells t hsides.2 hparts'.2 _ hwalked₁.within
      obtain ⟨result₃, hvalue, hwalked₃⟩ :=
        addHeaderValue_walked hcells hw hparts'.1 hwalked₂.within
      have hall := (hwalked₁.trans hwalked₂).trans hwalked₃
      have hnew : Expr.link v h t ∉ result := fun hmem => hseen (List.mem_map_of_mem hmem)
      refine ⟨result₃, ?_, ⟨(List.prefix_append _ _).trans hall.kept, fun r hr => ?_, hall.within,
        fun hn => hall.nodup ?_, ?_⟩, .inr hall.kept⟩
      · rw [hheads, py_ok_bind, htails, py_ok_bind]
        exact hvalue
      · cases hall.closed r hr with
        | inr hbelow => exact .inr hbelow
        | inl hr =>
          cases List.mem_append.mp hr with
          | inl hr => exact .inl hr
          | inr hr =>
            rw [List.mem_singleton.mp hr]
            exact .inr hall.wanted
      · exact List.nodup_append.mpr ⟨hn, List.nodup_singleton _, fun a ha b hb hab => hnew (by
          rw [← List.mem_singleton.mp hb, ← hab]
          exact ha)⟩
      · exact List.cons_subset.mpr ⟨hall.kept.subset
          (List.mem_append_right _ (List.mem_singleton_self _)), List.nil_subset _⟩

theorem visitHeaderChild_walked
    (hcells : ∀ c ∈ cells, ∀ c' ∈ cells, c.hash blake3 = c'.hash blake3 → c = c')
    (ch : Child) (hw : ch.Writable) (hin : ch.cells ⊆ cells) (result : List Expr)
    (hresult : result ⊆ cells) :
    ∃ result', visitHeaderChild blake3 ch result = .ok result' ∧
      HeaderWalk cells ch.held result result' := by
  cases ch with
  | none => exact ⟨result, rfl, HeaderWalk.refl hresult⟩
  | byHash x => exact ⟨result, rfl, HeaderWalk.refl hresult⟩
  | loaded e =>
    obtain ⟨result', hvisit, hwalked, -⟩ := visitHeader_walked hcells e hw hin result hresult
    exact ⟨result', hvisit, hwalked⟩

end

mutual

theorem cells_subset_of_closed (hclosed : ∀ r ∈ result, r.cellsBelow ⊆ result) (e : Expr)
    (he : e ∈ result) : e.cells ⊆ result := by
  cases e with
  | link v h t =>
    have hparts := List.append_subset.mp (hclosed _ he)
    have hsides := List.append_subset.mp hparts.1
    exact List.cons_subset.mpr ⟨he, List.append_subset.mpr
      ⟨childCells_subset_of_closed hclosed h hsides.1, List.append_subset.mpr
        ⟨hparts.2, childCells_subset_of_closed hclosed t hsides.2⟩⟩⟩
  | _ => exact List.cons_subset.mpr ⟨he, List.nil_subset _⟩

theorem childCells_subset_of_closed (hclosed : ∀ r ∈ result, r.cellsBelow ⊆ result) (ch : Child)
    (hch : ch.held ⊆ result) : ch.cells ⊆ result := by
  cases ch with
  | loaded e => exact cells_subset_of_closed hclosed e (hch (List.mem_singleton_self _))
  | none => exact List.nil_subset _
  | byHash x => exact List.nil_subset _

end

/-- The header of a block is its cells, once each and the block first. -/
theorem blockHeaderExprs_spec (hw : e.Writable)
    (hcells : ∀ c ∈ e.cells, ∀ c' ∈ e.cells, c.hash blake3 = c'.hash blake3 → c = c') :
    ∃ exprs, blockHeaderExprs blake3 e = .ok exprs ∧ exprs.head? = some e ∧ exprs.Nodup ∧
      exprs ⊆ e.cells ∧ e.cells ⊆ exprs := by
  obtain ⟨exprs, hvisit, hwalked, hfirst⟩ :=
    visitHeader_walked hcells e hw (List.Subset.refl _) [] (List.nil_subset _)
  refine ⟨exprs, hvisit, ?_, hwalked.nodup List.nodup_nil, hwalked.within, ?_⟩
  · cases hfirst with
    | inl hmem => cases hmem
    | inr hprefix =>
      obtain ⟨rest, rfl⟩ := hprefix
      rfl
  · refine cells_subset_of_closed (fun r hr => ?_) e
      (hwalked.wanted (List.mem_singleton_self _))
    exact (hwalked.closed r hr).resolve_left List.not_mem_nil

end Walking

section Sizes

variable {blake3 : Bytes → Bytes} {exprs : List Expr} {entries page : List Bytes} {used : Nat}

theorem packPages_fits
    (h : used + pageCost (exprs.map (encodeExprToBytes blake3)) ≤ pageEntryBudget) :
    packPages blake3 page used exprs = .ok [page ++ exprs.map (encodeExprToBytes blake3)] := by
  induction exprs generalizing page used with
  | nil => exact congrArg (fun page => Except.ok [page]) (List.append_nil page).symm
  | cons e exprs ih =>
    have hcost : pageCost ((e :: exprs).map (encodeExprToBytes blake3)) =
        4 + (encodeExprToBytes blake3 e).length +
          pageCost (exprs.map (encodeExprToBytes blake3)) := rfl
    rw [hcost] at h
    have hnext := @ih (page ++ [encodeExprToBytes blake3 e])
      (used + (4 + (encodeExprToBytes blake3 e).length)) (by omega)
    rw [packPages, if_neg (by omega), if_neg (by omega), hnext, List.append_assoc]
    rfl

theorem exists_joinEntries (h : pageCost entries ≤ pageEntryBudget) :
    ∃ joined, joinEntries entries = .ok joined := by
  induction entries with
  | nil => exact ⟨[], rfl⟩
  | cons x entries ih =>
    have hcost : pageCost (x :: entries) = 4 + x.length + pageCost entries := rfl
    rw [hcost] at h
    have hbudget : pageEntryBudget < 256 ^ 4 := by decide
    obtain ⟨len, hlen⟩ := @exists_toBytesBig 4 x.length (by omega)
    obtain ⟨joined, hjoined⟩ := ih (by omega)
    refine ⟨len ++ x ++ joined, ?_⟩
    rw [joinEntries, pageEntry, hlen, hjoined]
    rfl

theorem length_le_pageCost (entries : List Bytes) : 4 * entries.length ≤ pageCost entries := by
  induction entries with
  | nil => exact Nat.le_refl _
  | cons x entries ih =>
    have hcost : pageCost (x :: entries) = 4 + x.length + pageCost entries := rfl
    rw [hcost, List.length_cons]
    omega

/-- Cells that fit a page are sent in one. -/
theorem encodeSinglePage_fits (hne : exprs ≠ [])
    (h : pageCost (exprs.map (encodeExprToBytes blake3)) ≤ pageEntryBudget) :
    ∃ page, encodeSinglePage blake3 exprs = .ok page := by
  obtain ⟨root, exprs, rfl⟩ := List.exists_cons_of_ne_nil hne
  have hcost : pageCost ((root :: exprs).map (encodeExprToBytes blake3)) =
      4 + (encodeExprToBytes blake3 root).length +
        pageCost (exprs.map (encodeExprToBytes blake3)) := rfl
  have hcount := length_le_pageCost ((root :: exprs).map (encodeExprToBytes blake3))
  have hbudget : pageEntryBudget < 4 * 256 ^ 2 := by decide
  obtain ⟨joined, hjoined⟩ := exists_joinEntries h
  obtain ⟨count, hcount'⟩ := @exists_toBytesBig 2
    ((root :: exprs).map (encodeExprToBytes blake3)).length (by omega)
  obtain ⟨one, hone⟩ := @exists_toBytesBig 2 1 (by norm_num)
  refine ⟨1 :: one ++ one ++ count ++ joined, ?_⟩
  rw [hcost] at h
  rw [encodeSinglePage]
  rw [if_neg (by omega), packPages_fits h, py_ok_bind]
  change buildPage 1 1 ((root :: exprs).map (encodeExprToBytes blake3)) = _
  rw [buildPage, hone, py_ok_bind, py_ok_bind, hcount', py_ok_bind, hjoined]
  rfl

theorem pageCost_le {cells : List Expr} (hnodup : exprs.Nodup) (hsub : exprs ⊆ cells) :
    pageCost (exprs.map (encodeExprToBytes blake3)) ≤
      pageCost (cells.map (encodeExprToBytes blake3)) := by
  obtain ⟨l, hperm, hsublist⟩ := List.subperm_of_subset hnodup hsub
  have hsame : pageCost (exprs.map (encodeExprToBytes blake3)) =
      pageCost (l.map (encodeExprToBytes blake3)) :=
    ((hperm.symm.map _).map _).sum_eq
  rw [hsame]
  exact ((hsublist.map _).map _).sum_le_sum fun _ _ => Nat.zero_le _

end Sizes

section Reading

variable {node : Node} {e : Expr} {exprs : List Expr}

theorem encode_wireOf (blake3 : Bytes → Bytes) (e : Expr) :
    encodeExprToBytes blake3 (wireOf blake3 e) = encodeExprToBytes blake3 e := by
  cases e <;> rfl

/-- A node that has only the cells of a header as they were received has the header. -/
theorem holds_received (hdigest : ∀ x, (node.blake3 x).length = 32) (hw : e.Writable)
    (hapart : HeaderApart node.blake3 e) (hsub : exprs ⊆ e.cells) (hall : e.cells ⊆ exprs) :
    (node.storing (exprs.map (wireOf node.blake3))).Holds e := by
  have hwritable := Expr.cells_writable e hw
  refine ⟨fun c hc => ?_, hapart.zero, hapart.type⟩
  change getExpr (node.storing (exprs.map (wireOf node.blake3))) (c.hash node.blake3) =
    some (c.stored node.blake3)
  by_cases hnil : c = .nil
  · rw [hnil]
    rfl
  have hzero : c.hash node.blake3 ≠ zero32 := fun h => hnil (hapart.zero c hc h)
  have hhash : (wireOf node.blake3 c).hash node.blake3 = c.hash node.blake3 :=
    hash_wireOf_writable hnil (hwritable c hc)
  obtain ⟨c', hc', hsame, hstored⟩ :=
    storedAmong_hash node.blake3 (List.mem_map_of_mem (f := wireOf node.blake3) (hall hc))
  obtain ⟨r, hr, rfl⟩ := List.mem_map.mp hc'
  rw [hhash] at hsame hstored
  have hwire : wireOf node.blake3 r = c.stored node.blake3 := by
    by_cases hr' : r = .nil
    · rw [hr'] at hsame ⊢
      exact (hapart.pair c hc hsame.symm).symm
    · rw [hash_wireOf_writable hr' (hwritable r (hsub hr))] at hsame
      rw [hapart.cell r (hsub hr) c hc hsame, stored_of_ne hnil]
  have hget : (node.storing (exprs.map (wireOf node.blake3))).stored (c.hash node.blake3) =
      some (c.stored node.blake3) := by
    change storedAmong node.blake3 _ _ = _
    rw [hstored, encode_wireOf, decode_writable hdigest (hwritable r (hsub hr)), ← hwire]
    rfl
  rw [getExpr, if_neg hzero, hget]

theorem decodeBlockMessage_append {providerPayload page : Bytes} {info : PeerInfo}
    (hlength : providerPayload.length = peerInfoBytes)
    (hinfo : decodePeerInfo providerPayload = .ok info)
    (hpage : decodeFoundPage page = .ok (1, 1, exprs)) (hne : exprs ≠ []) :
    decodeBlockMessage (providerPayload ++ page) =
      some (⟨info.relayKey, info.host, info.port⟩, exprs) := by
  have hsome : page ≠ [] := by
    rintro rfl
    cases hpage
  have hlong : ¬ (providerPayload ++ page).length ≤ peerInfoBytes := by
    have hpos := List.length_pos_iff.mpr hsome
    rw [List.length_append]
    omega
  rw [decodeBlockMessage, if_neg hlong, ← hlength, List.take_left, List.drop_left, hinfo, hpage]
  simp [hne]

end Reading

section Samples

theorem headerCells_apart : ∀ c ∈ chainCells,
    c.hash sampleDigest = (wireOf sampleDigest .nil).hash sampleDigest →
      c.stored sampleDigest = wireOf sampleDigest .nil := by
  decide +kernel

theorem sample_header_fits : peerInfoBytes + 7 +
    pageCost (genesisBlock.expr.cells.map (encodeExprToBytes sampleDigest)) ≤
      maxInlineMessageBytes := by
  decide +kernel

end Samples

end Astreum

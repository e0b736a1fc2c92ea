import Astreum.WireForms

namespace Astreum

section Encoder

variable (blake3 : Bytes → Bytes)

/-- The loop of `encode_found_pages`: the pages, and what is told to `on_skip`. -/
def foundPages (page : List Bytes) (used : Nat) : List Expr → List (List Bytes) × List (Expr × Nat)
  | [] => ([page], [])
  | e :: exprs =>
    let entry := encodeExprToBytes blake3 e
    let cost := 4 + entry.length
    if pageEntryBudget < cost then
      let (pages, skipped) := foundPages page used exprs
      (pages, (e, entry.length) :: skipped)
    else if pageEntryBudget < used + cost then
      let (pages, skipped) := foundPages [entry] cost exprs
      (page :: pages, skipped)
    else foundPages (page ++ [entry]) (used + cost) exprs

/-- `_build_page` for each page, numbered from `number`. -/
def buildPages (total : Nat) : Nat → List (List Bytes) → Py (List Bytes)
  | _, [] => return []
  | number, entries :: pages => do
    let first ← buildPage number total entries
    return first :: (← buildPages total (number + 1) pages)

def encodeFoundPages (exprs : List Expr) : Py (List Bytes × List (Expr × Nat)) :=
  match exprs with
  | [] => .error .valueError
  | root :: exprs => do
    let entry := encodeExprToBytes blake3 root
    if pageEntryBudget < 4 + entry.length then .error .valueError
    else
      let (pages, skipped) := foundPages blake3 [entry] (4 + entry.length) exprs
      if 0xFFFF < pages.length then .error .valueError
      else return (← buildPages pages.length 1 pages, skipped)

/-- An expr that is too large for a page. -/
def tooLarge (e : Expr) : Bool := decide (pageEntryBudget < 4 + (encodeExprToBytes blake3 e).length)

end Encoder

section Layout

theorem toBytesLittle_fromBytesLittle (bs : Bytes) :
    Python.toBytesLittle bs.length (Python.fromBytesLittle bs) = bs := by
  induction bs with
  | nil => rfl
  | cons b bs ih =>
    have hb : b.toNat < 256 := b.toNat_lt
    rw [List.length_cons, Python.fromBytesLittle, Python.toBytesLittle]
    have hdiv : (b.toNat + 256 * Python.fromBytesLittle bs) / 256 = Python.fromBytesLittle bs := by
      omega
    have hmod : (b.toNat + 256 * Python.fromBytesLittle bs) % 256 = b.toNat := by omega
    rw [hdiv, hmod, ih, UInt8.ofNat_toNat]

theorem toBytesBig_fromBytesBig (bs : Bytes) :
    toBytesBig bs.length (Python.fromBytesBig bs) = .ok bs := by
  have hlt := fromBytesLittle_lt bs.reverse
  rw [List.length_reverse] at hlt
  rw [toBytesBig, Python.toBytesUnsigned, Python.fromBytesBig, if_neg]
  · have hsame := toBytesLittle_fromBytesLittle bs.reverse
    rw [List.length_reverse] at hsame
    rw [Int.toNat_natCast, hsame]
    simp [Except.map]
  · rw [not_or, not_lt, not_le]
    exact ⟨Int.natCast_nonneg _, by exact_mod_cast hlt⟩

/-- What is read as the entries of a page are entries, joined. -/
theorem pageEntries_eq_ok {count : Nat} {rest : Bytes} {exprs : List Expr}
    (h : pageEntries count rest = .ok exprs) : ∃ entries, entries.length = count ∧
      joinEntries entries = .ok rest ∧
        List.Forall₂ (fun x e => decodeExprFromBytes x = .ok e) entries exprs := by
  induction count generalizing rest exprs with
  | zero =>
    rw [pageEntries] at h
    split at h
    · rename_i hrest
      cases h
      exact ⟨[], rfl, by rw [hrest]; rfl, .nil⟩
    · cases h
  | succ count ih =>
    rw [pageEntries] at h
    split at h
    · cases h
    rename_i hfour
    dsimp only at h
    split at h
    · cases h
    rename_i hfit
    rw [not_or, not_lt] at hfit
    obtain ⟨expr, hexpr, h⟩ := except_bind_eq_ok.mp h
    obtain ⟨others, hothers, h⟩ := except_bind_eq_ok.mp h
    cases h
    obtain ⟨entries, rfl, hjoined, hread⟩ := ih hothers
    refine ⟨_ :: entries, rfl, ?_, .cons hexpr hread⟩
    have hlength : ((rest.drop 4).take (Python.fromBytesBig (rest.take 4))).length =
        Python.fromBytesBig (rest.take 4) := by
      rw [List.length_take]
      omega
    have hbytes : toBytesBig 4 (Python.fromBytesBig (rest.take 4)) = .ok (rest.take 4) := by
      have hfour' : (rest.take 4).length = 4 := by
        rw [List.length_take]
        omega
      have h := toBytesBig_fromBytesBig (rest.take 4)
      rwa [hfour'] at h
    rw [joinEntries, pageEntry, hlength, hbytes, hjoined]
    simp only [py_ok_bind]
    change Except.ok (rest.take 4 ++ _ ++ _) = _
    rw [List.append_assoc, List.take_append_drop, List.take_append_drop]

/-- A page in its layout, whose entries are read as cells. -/
structure FramedPage (payload : Bytes) (number total : Nat) (entries : List Bytes) : Prop where
  built : buildPage number total entries = .ok payload
  positive : number ≠ 0
  inRange : number ≤ total
  nonempty : entries ≠ []
  cells : ∀ x ∈ entries, ∃ e, decodeExprFromBytes x = .ok e

theorem decodeFoundPage_eq_ok {payload : Bytes} {number total : Nat} {exprs : List Expr}
    (h : decodeFoundPage payload = .ok (number, total, exprs)) :
    ∃ entries, FramedPage payload number total entries ∧
      List.Forall₂ (fun x e => decodeExprFromBytes x = .ok e) entries exprs := by
  rw [decodeFoundPage] at h
  split at h
  · cases h
  rename_i hhead
  rw [not_or, not_lt, not_not] at hhead
  obtain ⟨hseven, hone⟩ := hhead
  dsimp only at h
  split at h
  · cases h
  rename_i hrange
  simp only [not_or, not_lt] at hrange
  obtain ⟨-, hpage, hle, hcount⟩ := hrange
  obtain ⟨found, hfound, h⟩ := except_bind_eq_ok.mp h
  cases h
  obtain ⟨entries, hlength, hjoined, hread⟩ := pageEntries_eq_ok hfound
  have htwo : ∀ n, n + 2 ≤ payload.length →
      toBytesBig 2 (Python.fromBytesBig ((payload.drop n).take 2)) =
        .ok ((payload.drop n).take 2) := by
    intro n hn
    have hl : ((payload.drop n).take 2).length = 2 := by
      rw [List.length_take, List.length_drop]
      omega
    have h := toBytesBig_fromBytesBig ((payload.drop n).take 2)
    rwa [hl] at h
  refine ⟨entries, ⟨?_, hpage, hle, ?_, ?_⟩, hread⟩
  · rw [buildPage, htwo 1 (by omega), htwo 3 (by omega), hlength, htwo 5 (by omega), hjoined]
    simp only [py_ok_bind]
    obtain ⟨rest, rfl⟩ : ∃ rest, payload = 1 :: rest := by
      cases payload with
      | nil => cases hone
      | cons x rest => exact ⟨rest, by rw [Option.some.inj hone]⟩
    have hparts : rest.take 2 ++ ((rest.drop 2).take 2 ++ ((rest.drop 4).take 2 ++ rest.drop 6)) =
        rest := by
      rw [show rest.drop 6 = (rest.drop 4).drop 2 by rw [List.drop_drop], List.take_append_drop,
        show rest.drop 4 = (rest.drop 2).drop 2 by rw [List.drop_drop], List.take_append_drop,
        List.take_append_drop]
    change Except.ok (1 :: rest.take 2 ++ (rest.drop 2).take 2 ++ (rest.drop 4).take 2 ++
      rest.drop 6) = _
    rw [List.append_assoc, List.append_assoc, List.cons_append, hparts]
  · rintro rfl
    exact hcount hlength.symm
  · intro x hx
    obtain ⟨i, hi, rfl⟩ := List.mem_iff_getElem.mp hx
    have hi' : i < exprs.length := by rwa [← hread.length_eq]
    exact ⟨exprs[i], List.forall₂_iff_get.mp hread |>.2 i hi hi'⟩

theorem decodeFoundPage_of_framed {payload : Bytes} {number total : Nat} {entries : List Bytes}
    (h : FramedPage payload number total entries) :
    ∃ exprs, decodeFoundPage payload = .ok (number, total, exprs) := by
  have hread : ∃ exprs, List.Forall₂ (fun x e => decodeExprFromBytes x = .ok e) entries exprs := by
    have hcells := h.cells
    generalize entries = es at hcells
    induction es with
    | nil => exact ⟨[], .nil⟩
    | cons x es ih =>
      obtain ⟨e, he⟩ := hcells x List.mem_cons_self
      obtain ⟨exprs, hexprs⟩ := ih fun y hy => hcells y (List.mem_cons_of_mem _ hy)
      exact ⟨e :: exprs, .cons he hexprs⟩
  obtain ⟨exprs, hread⟩ := hread
  exact ⟨exprs, decodeFoundPage_buildPage h.positive h.inRange h.nonempty hread h.built⟩

/-- What is no page is refused with a `ValueError`. -/
theorem pageEntries_error {count : Nat} {rest : Bytes} {err : PyError}
    (h : pageEntries count rest = .error err) : err = .valueError := by
  induction count generalizing rest with
  | zero =>
    rw [pageEntries] at h
    split at h
    · cases h
    · exact (Except.error.inj h).symm
  | succ count ih =>
    rw [pageEntries] at h
    split at h
    · exact (Except.error.inj h).symm
    dsimp only at h
    split at h
    · exact (Except.error.inj h).symm
    rcases hexpr : decodeExprFromBytes
        ((rest.drop 4).take (Python.fromBytesBig (rest.take 4))) with err' | expr
    · rw [hexpr] at h
      obtain rfl := Except.error.inj h
      exact decodeExprFromBytes_error hexpr
    rw [hexpr, py_ok_bind] at h
    rcases hothers : pageEntries count
        ((rest.drop 4).drop (Python.fromBytesBig (rest.take 4))) with err' | others
    · rw [hothers] at h
      obtain rfl := Except.error.inj h
      exact ih hothers
    · rw [hothers] at h
      cases h

theorem decodeFoundPage_error {payload : Bytes} {err : PyError}
    (h : decodeFoundPage payload = .error err) : err = .valueError := by
  rw [decodeFoundPage] at h
  split at h
  · exact (Except.error.inj h).symm
  dsimp only at h
  split at h
  · exact (Except.error.inj h).symm
  rcases hfound : pageEntries (Python.fromBytesBig ((payload.drop 5).take 2)) (payload.drop 7)
    with err' | found
  · rw [hfound] at h
    obtain rfl := Except.error.inj h
    exact pageEntries_error hfound
  · rw [hfound] at h
    cases h

end Layout

section Packing

variable {blake3 : Bytes → Bytes}

/-- What the entries of a page take of it. -/
def pageCost (entries : List Bytes) : Nat := (entries.map fun x => 4 + x.length).sum

def kept (blake3 : Bytes → Bytes) (exprs : List Expr) : List Expr :=
  exprs.filter fun e => !tooLarge blake3 e

def skippedOf (blake3 : Bytes → Bytes) (exprs : List Expr) : List (Expr × Nat) :=
  (exprs.filter (tooLarge blake3)).map fun e => (e, (encodeExprToBytes blake3 e).length)

@[simp] theorem pageCost_append (xs ys : List Bytes) :
    pageCost (xs ++ ys) = pageCost xs + pageCost ys := by
  simp [pageCost]

theorem pageCost_pos {entries : List Bytes} (h : entries ≠ []) : 0 < pageCost entries := by
  obtain ⟨x, xs, rfl⟩ := List.exists_cons_of_ne_nil h
  simp only [pageCost, List.map_cons, List.sum_cons]
  omega

/-- The loop packs all that fits, in its order, into pages that are not too long. -/
theorem foundPages_spec {page : List Bytes} {used : Nat} (exprs : List Expr)
    (hne : page ≠ []) (hused : pageCost page = used) (hfit : used ≤ pageEntryBudget) :
    (foundPages blake3 page used exprs).2 = skippedOf blake3 exprs ∧
      (foundPages blake3 page used exprs).1.flatten =
        page ++ (kept blake3 exprs).map (encodeExprToBytes blake3) ∧
      ∀ p ∈ (foundPages blake3 page used exprs).1, p ≠ [] ∧ pageCost p ≤ pageEntryBudget := by
  induction exprs generalizing page used with
  | nil =>
    refine ⟨rfl, by simp [foundPages, kept], fun p hp => ?_⟩
    obtain rfl := List.mem_singleton.mp hp
    exact ⟨hne, hused ▸ hfit⟩
  | cons e exprs ih =>
    rw [foundPages]
    dsimp only
    split
    · rename_i hlarge
      have hskip : tooLarge blake3 e = true := decide_eq_true hlarge
      obtain ⟨hskipped, hflat, hpages⟩ := ih hne hused hfit
      refine ⟨?_, ?_, hpages⟩
      · rw [hskipped, skippedOf, skippedOf, List.filter_cons_of_pos hskip, List.map_cons]
      · rw [hflat, kept, kept, List.filter_cons_of_neg (by simp [hskip])]
    rename_i hsmall
    have hkeep : tooLarge blake3 e = false := decide_eq_false hsmall
    have hkept : kept blake3 (e :: exprs) = e :: kept blake3 exprs := by
      rw [kept, List.filter_cons_of_pos (by simp [hkeep])]
      rfl
    have hskipped' : skippedOf blake3 (e :: exprs) = skippedOf blake3 exprs := by
      rw [skippedOf, List.filter_cons_of_neg (by simp [hkeep])]
      rfl
    split
    · have hone : pageCost [encodeExprToBytes blake3 e] =
          4 + (encodeExprToBytes blake3 e).length := by simp [pageCost]
      obtain ⟨hskipped, hflat, hpages⟩ := ih (List.cons_ne_nil _ _) hone (not_lt.mp hsmall)
      refine ⟨hskipped.trans hskipped'.symm, ?_, fun p hp => ?_⟩
      · simp only [List.flatten_cons]
        rw [hflat, hkept, List.map_cons]
        rfl
      · rcases List.mem_cons.mp hp with rfl | hp
        · exact ⟨hne, hused ▸ hfit⟩
        · exact hpages p hp
    · rename_i hroom
      have hcost : pageCost (page ++ [encodeExprToBytes blake3 e]) =
          used + (4 + (encodeExprToBytes blake3 e).length) := by
        rw [pageCost_append, hused]
        simp [pageCost]
      obtain ⟨hskipped, hflat, hpages⟩ := ih (by simp) hcost (not_lt.mp hroom)
      refine ⟨hskipped.trans hskipped'.symm, ?_, hpages⟩
      rw [hflat, hkept, List.map_cons, List.append_assoc]
      rfl

theorem buildPages_eq_ok {total number : Nat} {pages : List (List Bytes)} {payloads : List Bytes}
    (h : buildPages total number pages = .ok payloads) : payloads.length = pages.length ∧
      ∀ i payload, payloads[i]? = some payload → ∃ entries, pages[i]? = some entries ∧
        buildPage (number + i) total entries = .ok payload := by
  induction pages generalizing number payloads with
  | nil =>
    cases h
    exact ⟨rfl, fun i payload hi => by simp at hi⟩
  | cons entries pages ih =>
    rw [buildPages] at h
    obtain ⟨first, hfirst, h⟩ := except_bind_eq_ok.mp h
    obtain ⟨rest, hrest, h⟩ := except_bind_eq_ok.mp h
    cases h
    obtain ⟨hlength, hbuilt⟩ := ih hrest
    refine ⟨by rw [List.length_cons, List.length_cons, hlength], fun i payload hi => ?_⟩
    cases i with
    | zero =>
      rw [List.getElem?_cons_zero] at hi
      exact ⟨entries, rfl, Option.some.inj hi ▸ hfirst⟩
    | succ i =>
      rw [List.getElem?_cons_succ] at hi
      obtain ⟨found, hfound, hpage⟩ := hbuilt i payload hi
      exact ⟨found, hfound, by rwa [Nat.add_right_comm] at hpage⟩

theorem buildPages_of_built {total number : Nat} {pages : List (List Bytes)}
    (h : ∀ i entries, pages[i]? = some entries →
      ∃ payload, buildPage (number + i) total entries = .ok payload) :
    ∃ payloads, buildPages total number pages = .ok payloads := by
  induction pages generalizing number with
  | nil => exact ⟨[], rfl⟩
  | cons entries pages ih =>
    obtain ⟨first, hfirst⟩ := h 0 entries rfl
    obtain ⟨rest, hrest⟩ := @ih (number + 1) fun i found hi => by
      obtain ⟨payload, hpayload⟩ := h (i + 1) found (by rwa [List.getElem?_cons_succ])
      exact ⟨payload, by rwa [Nat.add_right_comm, Nat.add_assoc]⟩
    rw [Nat.add_zero] at hfirst
    exact ⟨first :: rest, by rw [buildPages, hfirst, py_ok_bind, hrest]; rfl⟩

theorem length_joinEntries {entries : List Bytes} {bs : Bytes} (h : joinEntries entries = .ok bs) :
    bs.length = pageCost entries := by
  induction entries generalizing bs with
  | nil =>
    cases h
    rfl
  | cons x entries ih =>
    rw [joinEntries] at h
    obtain ⟨first, hfirst, h⟩ := except_bind_eq_ok.mp h
    obtain ⟨rest, hrest, h⟩ := except_bind_eq_ok.mp h
    cases h
    obtain ⟨len, hlen, hfirst⟩ := except_bind_eq_ok.mp hfirst
    cases hfirst
    have hcost : pageCost (x :: entries) = 4 + x.length + pageCost entries := rfl
    rw [List.length_append, List.length_append, (fromBytesBig_toBytesBig hlen).1, ih hrest, hcost]

/-- The parts of a page. -/
theorem buildPage_eq_ok {number total : Nat} {entries : List Bytes} {payload : Bytes}
    (h : buildPage number total entries = .ok payload) : ∃ page pages count joined : Bytes,
      payload = 1 :: page ++ pages ++ count ++ joined ∧ toBytesBig 2 number = .ok page ∧
        toBytesBig 2 total = .ok pages ∧ toBytesBig 2 entries.length = .ok count ∧
          joinEntries entries = .ok joined := by
  rw [buildPage] at h
  obtain ⟨page, hpage, h⟩ := except_bind_eq_ok.mp h
  obtain ⟨pages, hpages, h⟩ := except_bind_eq_ok.mp h
  obtain ⟨count, hcount, h⟩ := except_bind_eq_ok.mp h
  obtain ⟨joined, hjoined, h⟩ := except_bind_eq_ok.mp h
  cases h
  exact ⟨page, pages, count, joined, rfl, hpage, hpages, hcount, hjoined⟩

theorem length_buildPage {number total : Nat} {entries : List Bytes} {payload : Bytes}
    (h : buildPage number total entries = .ok payload) :
    payload.length = 7 + pageCost entries := by
  obtain ⟨page, pages, count, joined, rfl, hpage, hpages, hcount, hjoined⟩ := buildPage_eq_ok h
  simp only [List.length_append, List.length_cons, (fromBytesBig_toBytesBig hpage).1,
    (fromBytesBig_toBytesBig hpages).1, (fromBytesBig_toBytesBig hcount).1,
    length_joinEntries hjoined]

theorem joinEntries_inj {xs ys : List Bytes} {bs : Bytes} (hlength : xs.length = ys.length)
    (hx : joinEntries xs = .ok bs) (hy : joinEntries ys = .ok bs) : xs = ys := by
  induction xs generalizing ys bs with
  | nil => exact (List.length_eq_zero_iff.mp hlength.symm).symm
  | cons x xs ih =>
    cases ys with
    | nil => cases hlength
    | cons y ys =>
      rw [joinEntries] at hx hy
      obtain ⟨first, hfirst, hx⟩ := except_bind_eq_ok.mp hx
      obtain ⟨rest, hrest, hx⟩ := except_bind_eq_ok.mp hx
      obtain ⟨first', hfirst', hy⟩ := except_bind_eq_ok.mp hy
      obtain ⟨rest', hrest', hy⟩ := except_bind_eq_ok.mp hy
      obtain ⟨len, hlen, hfirst⟩ := except_bind_eq_ok.mp hfirst
      obtain ⟨len', hlen', hfirst'⟩ := except_bind_eq_ok.mp hfirst'
      cases hfirst
      cases hfirst'
      have hsame : len ++ (x ++ rest) = len' ++ (y ++ rest') := by
        have h := (Except.ok.inj hx).trans (Except.ok.inj hy).symm
        rwa [List.append_assoc, List.append_assoc] at h
      obtain ⟨hl, hv⟩ := fromBytesBig_toBytesBig hlen
      obtain ⟨hl', hv'⟩ := fromBytesBig_toBytesBig hlen'
      obtain ⟨rfl, hrests⟩ := List.append_inj hsame (hl.trans hl'.symm)
      obtain ⟨rfl, rfl⟩ := List.append_inj hrests (hv.symm.trans hv')
      rw [ih (Nat.succ.inj hlength) hrest hrest']

/-- A page has one list of entries. -/
theorem buildPage_inj {number total number' total' : Nat} {xs ys : List Bytes} {payload : Bytes}
    (hx : buildPage number total xs = .ok payload) (hy : buildPage number' total' ys = .ok payload) :
    xs = ys := by
  obtain ⟨page, pages, count, joined, rfl, hpage, hpages, hcount, hjoined⟩ := buildPage_eq_ok hx
  obtain ⟨page', pages', count', joined', h, hpage', hpages', hcount', hjoined'⟩ :=
    buildPage_eq_ok hy
  obtain ⟨lpage, -⟩ := fromBytesBig_toBytesBig hpage
  obtain ⟨lpages, -⟩ := fromBytesBig_toBytesBig hpages
  obtain ⟨lcount, vcount⟩ := fromBytesBig_toBytesBig hcount
  obtain ⟨lpage', -⟩ := fromBytesBig_toBytesBig hpage'
  obtain ⟨lpages', -⟩ := fromBytesBig_toBytesBig hpages'
  obtain ⟨lcount', vcount'⟩ := fromBytesBig_toBytesBig hcount'
  obtain ⟨hheader, rfl⟩ := List.append_inj h
    (by simp [lpage, lpages, lcount, lpage', lpages', lcount'])
  obtain ⟨-, rfl⟩ := List.append_inj hheader (by simp [lpage, lpages, lpage', lpages'])
  exact joinEntries_inj (vcount.symm.trans vcount') hjoined hjoined'

end Packing

section Groups

variable {blake3 : Bytes → Bytes}

/-- Each group fits a page, and its first expr does not fit the page before. -/
def Overflows (blake3 : Bytes → Bytes) (used : Nat) : List (List Expr) → Prop
  | [] => True
  | group :: groups =>
    (∃ e exprs, group = e :: exprs ∧
      pageEntryBudget < used + (4 + (encodeExprToBytes blake3 e).length)) ∧
    pageCost (group.map (encodeExprToBytes blake3)) ≤ pageEntryBudget ∧
    Overflows blake3 (pageCost (group.map (encodeExprToBytes blake3))) groups

theorem foundPages_fitting {page : List Bytes} {used : Nat} {group : List Expr} (rest : List Expr)
    (h : used + pageCost (group.map (encodeExprToBytes blake3)) ≤ pageEntryBudget) :
    foundPages blake3 page used (group ++ rest) =
      foundPages blake3 (page ++ group.map (encodeExprToBytes blake3))
        (used + pageCost (group.map (encodeExprToBytes blake3))) rest := by
  induction group generalizing page used with
  | nil => simp [pageCost]
  | cons e group ih =>
    have hcost : pageCost ((e :: group).map (encodeExprToBytes blake3)) =
        4 + (encodeExprToBytes blake3 e).length +
          pageCost (group.map (encodeExprToBytes blake3)) := rfl
    rw [hcost] at h
    rw [List.cons_append, foundPages]
    dsimp only
    rw [if_neg (by omega), if_neg (by omega), ih (by omega), hcost, List.map_cons,
      List.append_assoc, Nat.add_assoc]
    rfl

theorem foundPages_groups {page : List Bytes} {used : Nat} {groups : List (List Expr)}
    (h : Overflows blake3 used groups) :
    foundPages blake3 page used groups.flatten =
      (page :: groups.map (List.map (encodeExprToBytes blake3)), []) := by
  induction groups generalizing page used with
  | nil => rfl
  | cons group groups ih =>
    obtain ⟨⟨e, exprs, rfl, hover⟩, hfit, hrest⟩ := h
    have hcost : pageCost ((e :: exprs).map (encodeExprToBytes blake3)) =
        4 + (encodeExprToBytes blake3 e).length +
          pageCost (exprs.map (encodeExprToBytes blake3)) := rfl
    rw [hcost] at hfit hrest
    rw [List.flatten_cons, List.cons_append, foundPages]
    dsimp only
    rw [if_neg (by omega), if_pos hover, foundPages_fitting _ hfit]
    have hpages := @ih ([encodeExprToBytes blake3 e] ++ exprs.map (encodeExprToBytes blake3)) _ hrest
    rw [hpages]
    rfl

/-- The pages of groups that overflow one after the other are the groups. -/
theorem encodeFoundPages_groups {e : Expr} {exprs : List Expr} {groups : List (List Expr)}
    (hfit : pageCost ((e :: exprs).map (encodeExprToBytes blake3)) ≤ pageEntryBudget)
    (h : Overflows blake3 (pageCost ((e :: exprs).map (encodeExprToBytes blake3))) groups)
    (hcount : groups.length + 1 ≤ 0xFFFF) {payloads : List Bytes}
    (hbuilt : buildPages (groups.length + 1) 1
      (((e :: exprs) :: groups).map (List.map (encodeExprToBytes blake3))) = .ok payloads) :
    encodeFoundPages blake3 (e :: exprs ++ groups.flatten) = .ok (payloads, []) := by
  have hcost : pageCost ((e :: exprs).map (encodeExprToBytes blake3)) =
      4 + (encodeExprToBytes blake3 e).length +
        pageCost (exprs.map (encodeExprToBytes blake3)) := rfl
  rw [hcost] at hfit h
  have hpages : foundPages blake3 [encodeExprToBytes blake3 e]
      (4 + (encodeExprToBytes blake3 e).length) (exprs ++ groups.flatten) =
        (((e :: exprs) :: groups).map (List.map (encodeExprToBytes blake3)), []) := by
    rw [foundPages_fitting _ hfit, foundPages_groups h]
    rfl
  rw [List.cons_append, encodeFoundPages]
  dsimp only
  rw [if_neg (by omega), hpages]
  dsimp only
  rw [List.length_map, List.length_cons, if_neg (by omega), hbuilt]
  rfl

/-- An expr that takes a page for itself. -/
def filler : Expr := .bytes (List.replicate (pageEntryBudget - 5) 0)

theorem hundred_le_pageEntryBudget : 100 ≤ pageEntryBudget := by
  norm_num [pageEntryBudget, maxInlineMessageBytes]

theorem length_encode_filler : 4 + (encodeExprToBytes blake3 filler).length = pageEntryBudget := by
  have hroom := hundred_le_pageEntryBudget
  rw [filler, encodeExprToBytes, List.length_cons, List.length_replicate]
  omega

theorem pageCost_filler :
    pageCost ([filler].map (encodeExprToBytes blake3)) = pageEntryBudget := by
  rw [pageCost, List.map_cons, List.map_cons, List.map_nil, List.map_nil, List.sum_cons,
    List.sum_nil, Nat.add_zero, length_encode_filler]

theorem overflows_append_fillers {groups : List (List Expr)}
    (h : Overflows blake3 pageEntryBudget groups) (n : Nat) :
    Overflows blake3 pageEntryBudget (List.replicate n [filler] ++ groups) := by
  induction n with
  | zero => exact h
  | succ n ih =>
    have hroom := hundred_le_pageEntryBudget
    have hone := @length_encode_filler blake3
    rw [List.replicate_succ, List.cons_append]
    refine ⟨⟨filler, [], rfl, by omega⟩, pageCost_filler.le, ?_⟩
    rw [pageCost_filler]
    exact ih

theorem overflows_fillers {used : Nat} (hused : 0 < used) (n : Nat) :
    Overflows blake3 used (List.replicate n [filler]) := by
  induction n generalizing used with
  | zero => trivial
  | succ n ih =>
    have hroom := hundred_le_pageEntryBudget
    have hone := @length_encode_filler blake3
    rw [List.replicate_succ]
    refine ⟨⟨filler, [], rfl, by omega⟩, pageCost_filler.le, ?_⟩
    rw [pageCost_filler]
    exact ih (by omega)

end Groups

section Framing

variable {blake3 : Bytes → Bytes}

/-- What a reader of the pages should get: pages of no more than the limit, each read as its number
and its exprs, all exprs in their order with their hashes but those reported as too large. -/
structure PagesRead (blake3 : Bytes → Bytes) (exprs : List Expr) (payloads : List Bytes)
    (skipped : List (Expr × Nat)) : Prop where
  sized : ∀ p ∈ payloads, p.length ≤ maxInlineMessageBytes - 33
  read : ∃ decoded : List (List Expr), decoded.length = payloads.length ∧
    (∀ i payload, payloads[i]? = some payload → ∃ found, decoded[i]? = some found ∧
      decodeFoundPage payload = .ok (i + 1, payloads.length, found)) ∧
    decoded.flatten.map (Expr.hash blake3) = (kept blake3 exprs).map (Expr.hash blake3)
  skipped : skipped = skippedOf blake3 exprs

/-- A page that an encoder makes. -/
def Produced (blake3 : Bytes → Bytes) (payload : Bytes) : Prop :=
  ∃ exprs payloads skipped, (∀ e ∈ exprs, e.Encodable) ∧
    encodeFoundPages blake3 exprs = .ok (payloads, skipped) ∧ payload ∈ payloads

/-- A page in its layout that is too long, or has a link with bytes behind it among its entries. -/
def Misframed (payload : Bytes) : Prop :=
  ∃ number total entries, FramedPage payload number total entries ∧
    (maxInlineMessageBytes - 33 < payload.length ∨ ∃ x ∈ entries, trailingLink x)

theorem encodeFoundPages_eq_ok {exprs : List Expr} {payloads : List Bytes}
    {skipped : List (Expr × Nat)} (h : encodeFoundPages blake3 exprs = .ok (payloads, skipped)) :
    ∃ pages : List (List Bytes), buildPages pages.length 1 pages = .ok payloads ∧
      skipped = skippedOf blake3 exprs ∧
      pages.flatten = (kept blake3 exprs).map (encodeExprToBytes blake3) ∧
      ∀ p ∈ pages, p ≠ [] ∧ pageCost p ≤ pageEntryBudget := by
  cases exprs with
  | nil => cases h
  | cons root exprs =>
    rw [encodeFoundPages] at h
    dsimp only at h
    split at h
    · cases h
    rename_i hsmall
    have hone : pageCost [encodeExprToBytes blake3 root] =
        4 + (encodeExprToBytes blake3 root).length := by simp [pageCost]
    obtain ⟨hskipped, hflat, hpages⟩ :=
      @foundPages_spec blake3 _ _ exprs (List.cons_ne_nil _ []) hone (not_lt.mp hsmall)
    split at h
    · cases h
    obtain ⟨built, hbuilt, h⟩ := except_bind_eq_ok.mp h
    cases h
    have hkeep : tooLarge blake3 root = false := decide_eq_false hsmall
    refine ⟨_, hbuilt, ?_, ?_, hpages⟩
    · rw [hskipped, skippedOf, skippedOf, List.filter_cons_of_neg (by simp [hkeep])]
    · rw [hflat, kept, kept, List.filter_cons_of_pos (by simp [hkeep])]
      rfl

/-- The cell that an entry is read as. -/
def readEntry (x : Bytes) : Expr := (decodeExprFromBytes x).toOption.getD .nil

theorem forall₂_readEntry {entries : List Bytes}
    (h : ∀ x ∈ entries, ∃ e, decodeExprFromBytes x = .ok e) :
    List.Forall₂ (fun x e => decodeExprFromBytes x = .ok e) entries (entries.map readEntry) := by
  induction entries with
  | nil => exact .nil
  | cons x entries ih =>
    obtain ⟨e, he⟩ := h x List.mem_cons_self
    refine .cons ?_ (ih fun y hy => h y (List.mem_cons_of_mem _ hy))
    rw [readEntry, he]
    rfl

variable (hdigest : ∀ x, (blake3 x).length = 32)

include hdigest

/-- Every entry of a page is an expr that was encoded. -/
theorem entries_of_pages {exprs : List Expr} {pages : List (List Bytes)}
    (hexprs : ∀ e ∈ exprs, e.Encodable)
    (hflat : pages.flatten = (kept blake3 exprs).map (encodeExprToBytes blake3))
    {p : List Bytes} (hp : p ∈ pages) {x : Bytes} (hx : x ∈ p) :
    ∃ e, e.Encodable ∧ x = encodeExprToBytes blake3 e ∧
      decodeExprFromBytes x = .ok (wireOf blake3 e) := by
  have hmem : x ∈ pages.flatten := List.mem_flatten.mpr ⟨p, hp, hx⟩
  rw [hflat] at hmem
  obtain ⟨e, he, rfl⟩ := List.mem_map.mp hmem
  have hencodable := hexprs e (List.mem_of_mem_filter he)
  exact ⟨e, hencodable, rfl, decode_encodable hdigest hencodable⟩

theorem not_trailingLink_encode {e : Expr} (h : e.Encodable) :
    ¬trailingLink (encodeExprToBytes blake3 e) := by
  have hhead := length_getHeadHash_of_encodable hdigest h
  have htail := length_getTailHash_of_encodable hdigest h
  rintro ⟨hzero, hlength⟩
  have hlink : encodeExprToBytes blake3 e =
      0 :: e.getHeadHash blake3 ++ e.getTailHash blake3 := by
    cases e with
    | symbol s => cases hzero
    | bytes b => cases hzero
    | _ => rfl
  rw [hlink] at hlength
  simp only [List.cons_append, List.length_cons, List.length_append, hhead, htail] at hlength
  omega

/-- The pages are read as they should be just if nil is not among the exprs. -/
theorem pagesRead_iff (hnil : linkHash blake3 zero32 zero32 ≠ zero32) {exprs : List Expr}
    {payloads : List Bytes} {skipped : List (Expr × Nat)} (hexprs : ∀ e ∈ exprs, e.Encodable)
    (h : encodeFoundPages blake3 exprs = .ok (payloads, skipped)) :
    PagesRead blake3 exprs payloads skipped ↔ Expr.nil ∉ exprs := by
  obtain ⟨pages, hbuilt, hskipped, hflat, hpages⟩ := encodeFoundPages_eq_ok h
  obtain ⟨hlength, hpayloads⟩ := buildPages_eq_ok hbuilt
  have hsized : ∀ p ∈ payloads, p.length ≤ maxInlineMessageBytes - 33 := by
    intro p hp
    obtain ⟨i, hi, rfl⟩ := List.mem_iff_getElem.mp hp
    obtain ⟨entries, hentries, hpage⟩ := hpayloads i _ (List.getElem?_eq_getElem hi)
    have hcost := (hpages entries (List.mem_of_getElem? hentries)).2
    rw [length_buildPage hpage]
    simp only [pageEntryBudget, maxInlineMessageBytes] at hcost ⊢
    omega
  have hread : ∀ i payload, payloads[i]? = some payload →
      ∃ entries, pages[i]? = some entries ∧
        decodeFoundPage payload = .ok (i + 1, payloads.length, entries.map readEntry) := by
    intro i payload hi
    obtain ⟨entries, hentries, hpage⟩ := hpayloads i payload hi
    have hmem := List.mem_of_getElem? hentries
    have hlt : i < payloads.length := (List.getElem?_eq_some_iff.mp hi).1
    refine ⟨entries, hentries, ?_⟩
    rw [Nat.add_comm] at hpage
    rw [hlength]
    refine decodeFoundPage_buildPage (by omega) (by omega) (hpages entries hmem).1 ?_ hpage
    refine forall₂_readEntry fun x hx => ?_
    obtain ⟨e, -, -, hread⟩ := entries_of_pages hdigest hexprs hflat hmem hx
    exact ⟨_, hread⟩
  have hdecoded : ∀ decoded : List (List Expr), decoded.length = payloads.length →
      (∀ i payload, payloads[i]? = some payload → ∃ found, decoded[i]? = some found ∧
        decodeFoundPage payload = .ok (i + 1, payloads.length, found)) →
      decoded.flatten = (kept blake3 exprs).map (wireOf blake3) := by
    intro decoded hsame hfound
    have hmap : decoded = pages.map (List.map readEntry) := by
      refine List.ext_getElem? fun i => ?_
      rcases hi : payloads[i]? with _ | payload
      · have hle : payloads.length ≤ i := List.getElem?_eq_none_iff.mp hi
        rw [List.getElem?_eq_none (by omega), List.getElem?_eq_none (by simp; omega)]
      · obtain ⟨found, hdec, hpage⟩ := hfound i payload hi
        obtain ⟨entries, hentries, hpage'⟩ := hread i payload hi
        rw [hpage] at hpage'
        rw [hdec, List.getElem?_map, hentries]
        simpa using hpage'
    rw [hmap, ← List.map_flatten, hflat, List.map_map]
    refine List.map_congr_left fun e he => ?_
    simp only [Function.comp, readEntry]
    rw [decode_encodable hdigest (hexprs e (List.mem_of_mem_filter he))]
    rfl
  constructor
  · rintro ⟨-, ⟨decoded, hsame, hfound, hhashes⟩, -⟩ hmem
    have hkept : Expr.nil ∈ kept blake3 exprs := by
      refine List.mem_filter.mpr ⟨hmem, ?_⟩
      rfl
    rw [hdecoded decoded hsame hfound, List.map_map] at hhashes
    have hhash := List.map_inj_left.mp hhashes .nil hkept
    exact hnil hhash
  · intro hmem
    refine ⟨hsized, ⟨pages.map (List.map readEntry), by rw [List.length_map, hlength], ?_, ?_⟩,
      hskipped⟩
    · intro i payload hi
      obtain ⟨entries, hentries, hpage⟩ := hread i payload hi
      exact ⟨_, by rw [List.getElem?_map, hentries]; rfl, hpage⟩
    · rw [hdecoded (pages.map (List.map readEntry)) (by rw [List.length_map, hlength]) ?_,
        List.map_map]
      · refine List.map_congr_left fun e he => ?_
        have hin := List.mem_of_mem_filter he
        exact hash_wireOf_encodable (fun hcon => hmem (hcon ▸ hin)) (hexprs e hin)
      · intro i payload hi
        obtain ⟨entries, hentries, hpage⟩ := hread i payload hi
        exact ⟨_, by rw [List.getElem?_map, hentries]; rfl, hpage⟩

/-- No encoder makes a page that is too long or has bytes behind a link. -/
theorem not_misframed_of_produced {payload : Bytes} (h : Produced blake3 payload) :
    ¬Misframed payload := by
  obtain ⟨exprs, payloads, skipped, hexprs, hrun, hmem⟩ := h
  obtain ⟨pages, hbuilt, -, hflat, hpages⟩ := encodeFoundPages_eq_ok hrun
  obtain ⟨-, hpayloads⟩ := buildPages_eq_ok hbuilt
  obtain ⟨i, hi, rfl⟩ := List.mem_iff_getElem.mp hmem
  obtain ⟨entries, hentries, hpage⟩ := hpayloads i _ (List.getElem?_eq_getElem hi)
  have hin := List.mem_of_getElem? hentries
  rintro ⟨number, total, entries', hframed, hbad⟩
  obtain rfl := buildPage_inj hpage hframed.built
  rcases hbad with hlong | ⟨x, hx, htrailing⟩
  · have hcost := (hpages entries hin).2
    rw [length_buildPage hpage] at hlong
    simp only [pageEntryBudget, maxInlineMessageBytes] at hcost hlong
    omega
  · obtain ⟨e, hencodable, rfl, -⟩ := entries_of_pages hdigest hexprs hflat hin hx
    exact not_trailingLink_encode hdigest hencodable htrailing

omit hdigest in
theorem exists_toBytesBig {len n : Nat} (h : n < 256 ^ len) : ∃ bs, toBytesBig len n = .ok bs := by
  rw [toBytesBig, Python.toBytesUnsigned, if_neg]
  · exact ⟨_, rfl⟩
  · rw [not_or, not_lt, not_le]
    exact ⟨Int.natCast_nonneg _, by exact_mod_cast h⟩

omit hdigest in
theorem lt_of_toBytesBig {len n : Nat} {bs : Bytes} (h : toBytesBig len n = .ok bs) :
    n < 256 ^ len := by
  rw [toBytesBig, Python.toBytesUnsigned] at h
  split at h
  · cases h
  · rename_i hfit
    exact_mod_cast not_le.mp (not_or.mp hfit).2

omit hdigest in
theorem exists_buildPage_single {x : Bytes} {number total : Nat} (hsize : x.length < 256 ^ 4)
    (hnumber : number < 256 ^ 2) (htotal : total < 256 ^ 2) :
    ∃ payload, buildPage number total [x] = .ok payload := by
  obtain ⟨page, hpage⟩ := exists_toBytesBig hnumber
  obtain ⟨pages, hpages⟩ := exists_toBytesBig htotal
  obtain ⟨count, hcount⟩ := @exists_toBytesBig 2 1 (by norm_num)
  obtain ⟨len, hlen⟩ := exists_toBytesBig hsize
  refine ⟨1 :: page ++ pages ++ count ++ (len ++ x ++ []), ?_⟩
  rw [buildPage, hpage, hpages, List.length_singleton, hcount, joinEntries, joinEntries, pageEntry,
    hlen]
  rfl

omit hdigest in
/-- The exprs of a page are encoded as its entries. -/
theorem encode_readEntry {x : Bytes} (hread : ∃ e, decodeExprFromBytes x = .ok e)
    (htrailing : ¬trailingLink x) :
    (readEntry x).Encodable ∧ encodeExprToBytes blake3 (readEntry x) = x := by
  obtain ⟨e, he⟩ := hread
  have hsame : readEntry x = e := by
    rw [readEntry, he]
    rfl
  rw [hsame]
  refine ⟨?_, (encode_decoded_iff he).mpr htrailing⟩
  rw [decodeExprFromBytes.eq_def] at he
  split at he
  · rename_i rest
    split at he
    · cases he
    · rename_i hlong
      obtain rfl := Except.ok.inj he
      refine ⟨.inr ⟨.inl fun h => (by cases h), ?_⟩, ?_⟩
      · change (rest.take 32).length = 32
        rw [List.length_take]
        omega
      · change ((rest.drop 32).take 32).length = 32
        rw [List.length_take, List.length_drop]
        omega
  · rename_i rest
    rcases hs : utf8Decode rest with err | s
    · rw [hs] at he
      cases he
    · rw [hs] at he
      obtain rfl := Except.ok.inj he
      trivial
  · obtain rfl := Except.ok.inj he
    trivial
  · cases he

omit hdigest in
/-- A page in its layout without such a defect is made by an encoder: other pages go around it. -/
theorem produced_of_framed {payload : Bytes} {number total : Nat} {entries : List Bytes}
    (h : FramedPage payload number total entries)
    (hshort : payload.length ≤ maxInlineMessageBytes - 33)
    (htrailing : ∀ x ∈ entries, ¬trailingLink x) : Produced blake3 payload := by
  have hroom := hundred_le_pageEntryBudget
  have hencode : ∀ x ∈ entries, (readEntry x).Encodable ∧
      encodeExprToBytes blake3 (readEntry x) = x :=
    fun x hx => encode_readEntry (h.cells x hx) (htrailing x hx)
  have hgroup : (entries.map readEntry).map (encodeExprToBytes blake3) = entries := by
    rw [List.map_map]
    exact (List.map_congr_left fun x hx => (hencode x hx).2).trans (List.map_id' entries)
  have hcost : pageCost ((entries.map readEntry).map (encodeExprToBytes blake3)) ≤
      pageEntryBudget := by
    have hlength := length_buildPage h.built
    rw [hgroup]
    simp only [pageEntryBudget, maxInlineMessageBytes] at hshort ⊢
    omega
  have hpos : 0 < pageCost ((entries.map readEntry).map (encodeExprToBytes blake3)) := by
    rw [hgroup]
    exact pageCost_pos h.nonempty
  obtain ⟨e, exprs, hcons⟩ : ∃ e exprs, entries.map readEntry = e :: exprs :=
    List.exists_cons_of_ne_nil (by simpa using h.nonempty)
  have hfirst : pageEntryBudget < pageEntryBudget + (4 + (encodeExprToBytes blake3 e).length) := by
    omega
  obtain ⟨page, pages, -, -, -, hpage, hpages, -, -⟩ := buildPage_eq_ok h.built
  have htotal := lt_of_toBytesBig hpages
  have hpositive := h.positive
  have hrange := h.inRange
  -- the page is alone, or the last of the fillers before it is full
  obtain ⟨e₀, exprs₀, groups, hsplit, hfit, hover⟩ : ∃ e₀ exprs₀ groups,
      List.replicate (number - 1) [filler] ++ entries.map readEntry ::
        List.replicate (total - number) [filler] = (e₀ :: exprs₀) :: groups ∧
      pageCost ((e₀ :: exprs₀).map (encodeExprToBytes blake3)) ≤ pageEntryBudget ∧
      Overflows blake3 (pageCost ((e₀ :: exprs₀).map (encodeExprToBytes blake3))) groups := by
    rcases hnumber : number - 1 with _ | k
    · refine ⟨e, exprs, List.replicate (total - number) [filler], by rw [hcons]; rfl, ?_, ?_⟩
      · rwa [hcons] at hcost
      · rw [hcons] at hpos
        exact overflows_fillers hpos _
    · refine ⟨filler, [], List.replicate k [filler] ++ entries.map readEntry ::
        List.replicate (total - number) [filler], rfl, pageCost_filler.le, ?_⟩
      rw [pageCost_filler]
      have hlast : Overflows blake3 pageEntryBudget
          (entries.map readEntry :: List.replicate (total - number) [filler]) :=
        ⟨⟨e, exprs, hcons, hfirst⟩, hcost, overflows_fillers hpos _⟩
      exact overflows_append_fillers hlast k
  have hcount : groups.length + 1 = total := by
    have hlength := congrArg List.length hsplit
    simp only [List.length_append, List.length_replicate, List.length_cons] at hlength
    omega
  have hmap : ((e₀ :: exprs₀) :: groups).map (List.map (encodeExprToBytes blake3)) =
      List.replicate (number - 1) [encodeExprToBytes blake3 filler] ++ entries ::
        List.replicate (total - number) [encodeExprToBytes blake3 filler] := by
    rw [← hsplit, List.map_append, List.map_cons, hgroup, List.map_replicate, List.map_replicate]
    rfl
  have hbuilds : ∀ i found, (((e₀ :: exprs₀) :: groups).map
      (List.map (encodeExprToBytes blake3)))[i]? = some found →
      ∃ payload, buildPage (1 + i) total found = .ok payload := by
    intro i found hi
    have hlt : i < total := by
      have hlt := (List.getElem?_eq_some_iff.mp hi).1
      rw [List.length_map, List.length_cons] at hlt
      omega
    have hsize : (encodeExprToBytes blake3 filler).length < 256 ^ 4 := by
      have hone := @length_encode_filler blake3
      norm_num [pageEntryBudget, maxInlineMessageBytes] at hone ⊢
      omega
    have hnumber : 1 + i < 256 ^ 2 := by omega
    have hfiller := exists_buildPage_single hsize hnumber htotal
    rw [hmap] at hi
    rcases lt_trichotomy i (number - 1) with hbefore | hat | hafter
    · rw [List.getElem?_append_left (by simpa using hbefore),
        List.getElem?_replicate_of_lt hbefore] at hi
      exact Option.some.inj hi ▸ hfiller
    · rw [List.getElem?_append_right (by simp; omega)] at hi
      simp only [List.length_replicate, hat, Nat.sub_self, List.getElem?_cons_zero] at hi
      refine ⟨payload, ?_⟩
      rw [hat, show 1 + (number - 1) = number by omega, ← Option.some.inj hi]
      exact h.built
    · rw [List.getElem?_append_right (by simp; omega), List.length_replicate,
        show i - (number - 1) = i - number + 1 by omega, List.getElem?_cons_succ,
        List.getElem?_replicate_of_lt (by omega)] at hi
      exact Option.some.inj hi ▸ hfiller
  obtain ⟨payloads, hpayloads⟩ := buildPages_of_built hbuilds
  refine ⟨_, payloads, [], ?_, encodeFoundPages_groups hfit hover (by omega)
    (by rw [hcount]; exact hpayloads), ?_⟩
  · intro x hx
    have hmem : x ∈ ((e₀ :: exprs₀) :: groups).flatten := hx
    rw [← hsplit, List.mem_flatten] at hmem
    obtain ⟨group, hin, hx⟩ := hmem
    have hfillers : ∀ n, group ∈ List.replicate n [filler] → x.Encodable := by
      intro n hgroup
      rw [List.eq_of_mem_replicate hgroup, List.mem_singleton] at hx
      rw [hx]
      trivial
    rcases List.mem_append.mp hin with hin | hin
    · exact hfillers _ hin
    rcases List.mem_cons.mp hin with rfl | hin
    · obtain ⟨y, hy, rfl⟩ := List.mem_map.mp hx
      exact (hencode y hy).1
    · exact hfillers _ hin
  · obtain ⟨hlength, hbuilt⟩ := buildPages_eq_ok hpayloads
    rw [hmap] at hlength hbuilt
    have hlt : number - 1 < payloads.length := by
      rw [hlength]
      simp
    obtain ⟨found, hfound, hpage⟩ := hbuilt _ _ (List.getElem?_eq_getElem hlt)
    rw [List.getElem?_append_right (by simp)] at hfound
    simp only [List.length_replicate, Nat.sub_self, List.getElem?_cons_zero] at hfound
    rw [show 1 + (number - 1) = number by omega, ← Option.some.inj hfound, h.built] at hpage
    rw [Except.ok.inj hpage]
    exact List.getElem_mem hlt

/-- Pages are read as they should be just if nil is not among the exprs, and what no encoder makes
is refused just if it is not such a page. -/
theorem page_framing_iff (hnil : linkHash blake3 zero32 zero32 ≠ zero32) :
    (∀ exprs payloads skipped, (∀ e ∈ exprs, e.Encodable) →
      encodeFoundPages blake3 exprs = .ok (payloads, skipped) →
      (PagesRead blake3 exprs payloads skipped ↔ Expr.nil ∉ exprs)) ∧
    ∀ payload : Bytes,
      (∀ err, decodeFoundPage payload = .error err → err = .valueError) ∧
      (decodeFoundPage payload = .error .valueError ∨ Produced blake3 payload ↔
        ¬Misframed payload) := by
  refine ⟨fun exprs payloads skipped => pagesRead_iff hdigest hnil, fun payload =>
    ⟨fun err => decodeFoundPage_error, ?_⟩⟩
  constructor
  · rintro (herror | hproduced) ⟨number, total, entries, hframed, hbad⟩
    · obtain ⟨exprs, hread⟩ := decodeFoundPage_of_framed hframed
      rw [herror] at hread
      cases hread
    · exact not_misframed_of_produced hdigest hproduced ⟨number, total, entries, hframed, hbad⟩
  · intro hgood
    rcases hread : decodeFoundPage payload with err | ⟨number, total, exprs⟩
    · rw [decodeFoundPage_error hread]
      exact .inl rfl
    · obtain ⟨entries, hframed, -⟩ := decodeFoundPage_eq_ok hread
      refine .inr (produced_of_framed hframed (not_lt.mp fun hlong => ?_) fun x hx htrailing => ?_)
      · exact hgood ⟨number, total, entries, hframed, .inl hlong⟩
      · exact hgood ⟨number, total, entries, hframed, .inr ⟨x, hx, htrailing⟩⟩

end Framing

section Samples

theorem encodeFoundPages_single {e : Expr}
    (hfit : pageCost [encodeExprToBytes sampleDigest e] ≤ 100) :
    ∃ payloads, encodeFoundPages sampleDigest [e] = .ok (payloads, []) := by
  have hsize : (encodeExprToBytes sampleDigest e).length < 256 ^ 4 := by
    have hcost : pageCost [encodeExprToBytes sampleDigest e] =
        4 + (encodeExprToBytes sampleDigest e).length := by simp [pageCost]
    norm_num
    omega
  obtain ⟨payload, hpayload⟩ := @exists_buildPage_single _ 1 1 hsize (by norm_num) (by norm_num)
  have hbuilt : buildPages 1 1 [[encodeExprToBytes sampleDigest e]] = .ok [payload] := by
    rw [buildPages, hpayload]
    rfl
  exact ⟨[payload], @encodeFoundPages_groups sampleDigest e [] []
    (hfit.trans hundred_le_pageEntryBudget) trivial (by decide) _ hbuilt⟩

theorem sample_nil_apart : linkHash sampleDigest zero32 zero32 ≠ zero32 := by decide +kernel

theorem sample_page_is_read : ∃ payloads skipped,
    encodeFoundPages sampleDigest [.bytes [7]] = .ok (payloads, skipped) ∧
      PagesRead sampleDigest [.bytes [7]] payloads skipped := by
  obtain ⟨payloads, hrun⟩ := @encodeFoundPages_single (.bytes [7]) (by decide)
  refine ⟨payloads, [], hrun, ?_⟩
  refine ((page_framing_iff (fun x => by simp [sampleDigest]) sample_nil_apart).1 [.bytes [7]] _ _
    (fun e he => ?_) hrun).mpr (by decide)
  rw [List.mem_singleton.mp he]
  trivial

/-- A page of one link, with a byte behind its two hashes. -/
def trailingPage : Bytes := [1, 0, 1, 0, 1, 0, 1, 0, 0, 0, 66] ++ 0 :: List.replicate 65 7

/-- A page that no encoder makes is read, and nil is read as another expr. -/
theorem trailing_page_is_read :
    (decodeFoundPage trailingPage ≠ .error .valueError ∧ ¬Produced sampleDigest trailingPage) ∧
      ∃ payloads skipped, encodeFoundPages sampleDigest [.nil] = .ok (payloads, skipped) ∧
        ¬PagesRead sampleDigest [.nil] payloads skipped := by
  have hdigest : ∀ x, (sampleDigest x).length = 32 := fun x => by simp [sampleDigest]
  have hframed : FramedPage trailingPage 1 1 [0 :: List.replicate 65 7] := by
    refine ⟨by decide, one_ne_zero, le_rfl, List.cons_ne_nil _ _, fun x hx => ?_⟩
    rw [List.mem_singleton.mp hx]
    exact ⟨_, decodeExprFromBytes_link _ (by decide)⟩
  have htrailing : trailingLink (0 :: List.replicate 65 7) := ⟨rfl, by decide⟩
  obtain ⟨payloads, hrun⟩ := @encodeFoundPages_single .nil (by decide)
  refine ⟨⟨fun herror => ?_, fun hproduced => ?_⟩, payloads, [], hrun, fun hread => ?_⟩
  · obtain ⟨exprs, hread⟩ := decodeFoundPage_of_framed hframed
    rw [herror] at hread
    cases hread
  · exact not_misframed_of_produced hdigest hproduced
      ⟨1, 1, _, hframed, .inr ⟨_, List.mem_singleton_self _, htrailing⟩⟩
  · refine (pagesRead_iff hdigest sample_nil_apart (fun e he => ?_) hrun).mp hread (by decide)
    rw [List.mem_singleton.mp he]
    trivial

end Samples

end Astreum

import Astreum.Dict
import Astreum.Nearest
import Astreum.Rates
import Astreum.StorageRequests
import Astreum.XorDistance

namespace Astreum

/-- The contact data of one node, with the host of an IPv4 address as its text. -/
structure PeerInfo where
  storageKey : Bytes
  relayKey : Bytes
  host : String
  port : Nat

/-- `socket.inet_ntop` of an IPv4 address. -/
def inetNtop (host : Bytes) : String := ".".intercalate (host.map fun b => toString b.toNat)

/-- `decode_peer_info` of an IPv4 entry. -/
def decodePeerInfo (data : Bytes) : Py PeerInfo :=
  if data.length ≠ peerInfoBytes then .error .valueError
  else .ok ⟨data.take 32, (data.drop 32).take 32, inetNtop ((data.drop 64).take 4),
    Python.fromBytesBig (data.drop 68)⟩

/-- The providers that a node knows, and for each expr the ids of those that hold it. -/
structure ProviderTable where
  storageProviders : List Bytes
  storageIndex : Dict Bytes (List Int)

namespace ProviderTable

def empty : ProviderTable := ⟨[], Dict.empty⟩

/-- `provider_id_for_payload`. -/
def providerIdForPayload (payload : Bytes) (t : ProviderTable) : Int × ProviderTable :=
  match t.storageProviders.findIdx? (· = payload) with
  | some idx => (idx, t)
  | none => (t.storageProviders.length,
      { t with storageProviders := t.storageProviders ++ [payload] })

/-- `provider_payload_for_id`. -/
def providerPayloadForId (t : ProviderTable) (providerId : Int) : Option Bytes :=
  if providerId < 0 then none else t.storageProviders[providerId.toNat]?

def entry (t : ProviderTable) (exprId : Bytes) : List Int := (t.storageIndex.get? exprId).getD []

/-- The ids of an entry that are of another key, with the distances of their keys. -/
def keptProviders (t : ProviderTable) (exprId key : Bytes) : List Int → Py (List (Nat × Int))
  | [] => .ok []
  | existingId :: rest => match t.providerPayloadForId existingId with
    | none => keptProviders t exprId key rest
    | some payload => match decodePeerInfo payload with
      | .error _ => keptProviders t exprId key rest
      | .ok info =>
        if info.storageKey ≠ key then do
          let distance ← xorDistance exprId info.storageKey
          let kept ← keptProviders t exprId key rest
          return (distance, existingId) :: kept
        else keptProviders t exprId key rest

/-- `index_provider`. -/
def indexProvider (exprId : Bytes) (providerId : Int) (t : ProviderTable) : Py ProviderTable :=
  match t.providerPayloadForId providerId with
  | none => .ok t
  | some payload => match decodePeerInfo payload with
    | .error _ => .ok t
    | .ok info => do
      let kept ← t.keptProviders exprId info.storageKey (t.entry exprId)
      let distance ← xorDistance exprId info.storageKey
      let kept := (kept ++ [(distance, providerId)]).insertionSort fun p q => p.1 ≤ q.1
      return { t with storageIndex :=
        t.storageIndex.insert exprId ((kept.take providersPerRecord).map Prod.snd) }

end ProviderTable

/-- What a node is told of a provider: the expr it holds, and its payload. -/
structure Advert where
  exprId : Bytes
  payload : Bytes
  deriving DecidableEq

/-- An advert is indexed. -/
def Advert.index (a : Advert) (t : ProviderTable) : Py ProviderTable :=
  let r := t.providerIdForPayload a.payload
  r.2.indexProvider a.exprId r.1

/-- The adverts are indexed one after another. -/
def indexed : List Advert → ProviderTable → Py ProviderTable
  | [], t => .ok t
  | a :: rest, t => do indexed rest (← a.index t)

structure Advert.WellFormed (a : Advert) : Prop where
  exprId : a.exprId.length = 32
  payload : a.payload.length = peerInfoBytes

def Advert.key (a : Advert) : Bytes := a.payload.take 32

/-- The keys of the providers that were named for an expr. -/
def keysFor (exprId : Bytes) (adverts : List Advert) : Finset Bytes :=
  ((adverts.filter fun a => a.exprId = exprId).map Advert.key).toFinset

/-- The payload that was indexed last for an expr under a key. -/
def lastPayload (exprId key : Bytes) (adverts : List Advert) : Option Bytes :=
  ((adverts.filter fun a => a.exprId = exprId ∧ a.key = key).map Advert.payload).getLast?

section Histories

variable {exprId key : Bytes} {adverts : List Advert} {a : Advert}

theorem mem_keysFor : key ∈ keysFor exprId adverts ↔
    ∃ a ∈ adverts, a.exprId = exprId ∧ a.key = key := by
  simp [keysFor, and_assoc]

theorem keysFor_append (h : a.exprId = exprId) :
    keysFor exprId (adverts ++ [a]) = insert a.key (keysFor exprId adverts) := by
  ext k
  rw [Finset.mem_insert, mem_keysFor, mem_keysFor]
  simp only [List.mem_append, List.mem_singleton]
  constructor
  · rintro ⟨b, hb | rfl, hexpr, hkey⟩
    · exact .inr ⟨b, hb, hexpr, hkey⟩
    · exact .inl hkey.symm
  · rintro (rfl | ⟨b, hb, hexpr, hkey⟩)
    · exact ⟨a, .inr rfl, h, rfl⟩
    · exact ⟨b, .inl hb, hexpr, hkey⟩

theorem keysFor_append_of_ne (h : a.exprId ≠ exprId) :
    keysFor exprId (adverts ++ [a]) = keysFor exprId adverts := by
  rw [keysFor, keysFor, List.filter_append, List.filter_cons_of_neg (by simpa using h),
    List.filter_nil, List.append_nil]

theorem lastPayload_append (hexpr : a.exprId = exprId) (hkey : a.key = key) :
    lastPayload exprId key (adverts ++ [a]) = some a.payload := by
  rw [lastPayload, List.filter_append, List.filter_cons_of_pos (by simp [hexpr, hkey]),
    List.filter_nil, List.map_append, List.map_singleton, List.getLast?_concat]

theorem lastPayload_append_of_ne (h : ¬(a.exprId = exprId ∧ a.key = key)) :
    lastPayload exprId key (adverts ++ [a]) = lastPayload exprId key adverts := by
  rw [lastPayload, lastPayload, List.filter_append, List.filter_cons_of_neg (by simpa using h),
    List.filter_nil, List.append_nil]

/-- A payload that was indexed last under a key is one of an advert. -/
theorem lastPayload_eq_some {p : Bytes} (h : lastPayload exprId key adverts = some p) :
    ∃ a ∈ adverts, a.exprId = exprId ∧ a.key = key ∧ a.payload = p := by
  obtain ⟨a, ha, rfl⟩ := List.mem_map.mp (List.mem_of_getLast? h)
  obtain ⟨hmem, hof⟩ := List.mem_filter.mp ha
  obtain ⟨hexpr, hkey⟩ := of_decide_eq_true hof
  exact ⟨a, hmem, hexpr, hkey, rfl⟩

theorem exists_lastPayload (h : key ∈ keysFor exprId adverts) :
    ∃ p, lastPayload exprId key adverts = some p := by
  obtain ⟨a, ha, hexpr, hkey⟩ := mem_keysFor.mp h
  rw [lastPayload, ← Option.isSome_iff_exists, List.getLast?_isSome]
  refine List.ne_nil_of_mem (a := a.payload) (List.mem_map_of_mem (List.mem_filter.mpr ⟨ha, ?_⟩))
  exact decide_eq_true ⟨hexpr, hkey⟩

end Histories

namespace ProviderTable

variable {t : ProviderTable} {exprId payload : Bytes} {id : Int}

/-- The key of the provider with an id. -/
def keyAt (t : ProviderTable) (id : Int) : Bytes := ((t.providerPayloadForId id).getD []).take 32

theorem decodePeerInfo_of_length (h : payload.length = peerInfoBytes) :
    ∃ info, decodePeerInfo payload = .ok info ∧ info.storageKey = payload.take 32 :=
  ⟨_, if_neg (not_not.mpr h), rfl⟩

/-- The id of a payload stands for it, and the ids given before stand for what they did. -/
theorem providerIdForPayload_spec (payload : Bytes) (t : ProviderTable) :
    ∃ id t', t.providerIdForPayload payload = (id, t') ∧ t'.storageIndex = t.storageIndex ∧
      t'.providerPayloadForId id = some payload ∧
      (∀ i p, t.providerPayloadForId i = some p → t'.providerPayloadForId i = some p) ∧
      ∀ p ∈ t'.storageProviders, p ∈ t.storageProviders ∨ p = payload := by
  rw [providerIdForPayload]
  rcases hfind : t.storageProviders.findIdx? (· = payload) with _ | idx
  · refine ⟨_, _, rfl, rfl, ?_, fun i p hp => ?_, fun p hp => ?_⟩
    · simp [providerPayloadForId]
    · rw [providerPayloadForId] at hp ⊢
      split at hp
      · cases hp
      · rename_i hneg
        rw [if_neg hneg, List.getElem?_append_left (List.getElem?_eq_some_iff.mp hp).1, hp]
    · exact (List.mem_append.mp hp).imp_right List.mem_singleton.mp
  · obtain ⟨hlt, heq, -⟩ := List.findIdx?_eq_some_iff_getElem.mp hfind
    refine ⟨_, _, rfl, rfl, ?_, fun i p hp => hp, fun p hp => .inl hp⟩
    rw [providerPayloadForId, if_neg (by omega), Int.toNat_natCast, List.getElem?_eq_getElem hlt]
    exact congrArg some (of_decide_eq_true heq)

/-- The row of an id in the list that is sorted. -/
def row (t : ProviderTable) (exprId : Bytes) (id : Int) : Nat × Int :=
  (distanceTo exprId (t.keyAt id), id)

theorem keptProviders_eq {ids : List Int} {key : Bytes} (hexpr : exprId.length = 32)
    (hids : ∀ id ∈ ids, ∃ p, t.providerPayloadForId id = some p ∧ p.length = peerInfoBytes) :
    t.keptProviders exprId key ids =
      .ok ((ids.filter fun id => t.keyAt id ≠ key).map (t.row exprId)) := by
  induction ids with
  | nil => rfl
  | cons id ids ih =>
    obtain ⟨p, hp, hlength⟩ := hids id List.mem_cons_self
    obtain ⟨info, hinfo, hkey⟩ := decodePeerInfo_of_length hlength
    have hat : t.keyAt id = info.storageKey := by rw [keyAt, hp, hkey, Option.getD_some]
    have hdistance : xorDistance exprId info.storageKey = .ok (distanceTo exprId (t.keyAt id)) := by
      rw [hat]
      refine xorDistance_of_length ?_
      rw [hkey, List.length_take, hlength, hexpr]
      rfl
    have hrest := ih fun i hi => hids i (List.mem_cons_of_mem id hi)
    simp only [keptProviders, hp, hinfo]
    by_cases hsame : info.storageKey = key
    · rw [if_neg (not_not.mpr hsame), hrest, List.filter_cons_of_neg (by simpa [hat] using hsame)]
    · rw [if_pos hsame, hdistance, hrest, List.filter_cons_of_pos (by simpa [hat] using hsame)]
      rfl

/-- The ids of an entry once another one is put in its place. -/
def placed (t : ProviderTable) (exprId : Bytes) (id : Int) : List Int :=
  ((t.entry exprId).filter (fun i => t.keyAt i ≠ t.keyAt id) ++ [id]).insertionSort
    fun i j => distanceTo exprId (t.keyAt i) ≤ distanceTo exprId (t.keyAt j)

theorem indexProvider_eq (hexpr : exprId.length = 32)
    (hids : ∀ i ∈ t.entry exprId, ∃ p, t.providerPayloadForId i = some p ∧ p.length = peerInfoBytes)
    (hid : t.providerPayloadForId id = some payload) (hlength : payload.length = peerInfoBytes) :
    t.indexProvider exprId id = .ok ⟨t.storageProviders,
      t.storageIndex.insert exprId ((t.placed exprId id).take providersPerRecord)⟩ := by
  obtain ⟨info, hinfo, hkey⟩ := decodePeerInfo_of_length hlength
  have hat : t.keyAt id = info.storageKey := by rw [keyAt, hid, hkey, Option.getD_some]
  have hdistance : xorDistance exprId info.storageKey = .ok (distanceTo exprId (t.keyAt id)) := by
    rw [hat]
    refine xorDistance_of_length ?_
    rw [hkey, List.length_take, hlength, hexpr]
    rfl
  have hrows : (((t.entry exprId).filter fun i => t.keyAt i ≠ info.storageKey).map (t.row exprId) ++
      [(distanceTo exprId (t.keyAt id), id)]).insertionSort (fun p q => p.1 ≤ q.1) =
      (t.placed exprId id).map (t.row exprId) := by
    rw [placed, ← hat, List.map_insertionSort
      (fun i j => distanceTo exprId (t.keyAt i) ≤ distanceTo exprId (t.keyAt j))
      (fun p q : Nat × Int => p.1 ≤ q.1) (t.row exprId) _ fun _ _ _ _ => Iff.rfl, List.map_append]
    rfl
  simp only [indexProvider, hid, hinfo, keptProviders_eq hexpr hids, hdistance, bind, Except.bind,
    pure, Except.pure, hrows, ← List.map_take, List.map_map]
  rw [show Prod.snd ∘ t.row exprId = fun i => i from rfl, List.map_id']

/-- What the table holds of the adverts that were indexed. -/
structure Indexes (t : ProviderTable) (adverts : List Advert) : Prop where
  decodes : ∀ p ∈ t.storageProviders, p.length = peerInfoBytes
  entries : ∀ exprId, ∃ keys,
    Nearest.IsNearest (distanceTo exprId) providersPerRecord (keysFor exprId adverts) keys ∧
      (t.entry exprId).map t.providerPayloadForId =
        keys.map fun key => lastPayload exprId key adverts

theorem mem_of_payload {p : Bytes} (h : t.providerPayloadForId id = some p) :
    p ∈ t.storageProviders := by
  rw [providerPayloadForId] at h
  split at h
  · cases h
  · exact List.mem_of_getElem? h

theorem indexes_empty : empty.Indexes [] where
  decodes := fun _ h => absurd h List.not_mem_nil
  entries := fun _ => ⟨[], Nearest.IsNearest.nil, rfl⟩

theorem Indexes.payload_of_mem {adverts : List Advert} (h : t.Indexes adverts)
    (hid : id ∈ t.entry exprId) : ∃ p, t.providerPayloadForId id = some p ∧
      p.length = peerInfoBytes ∧ lastPayload exprId (t.keyAt id) adverts = some p := by
  obtain ⟨keys, hnear, heq⟩ := h.entries exprId
  have hmem : t.providerPayloadForId id ∈ (t.entry exprId).map t.providerPayloadForId :=
    List.mem_map_of_mem hid
  rw [heq] at hmem
  obtain ⟨key, hkey, hlast⟩ := List.mem_map.mp hmem
  obtain ⟨p, hp⟩ := exists_lastPayload (hnear.mem key hkey)
  obtain ⟨a, -, -, hakey, hpayload⟩ := lastPayload_eq_some hp
  have hfound : t.providerPayloadForId id = some p := hlast.symm.trans hp
  have hat : t.keyAt id = key := by
    rw [keyAt, hfound, Option.getD_some, ← hakey, Advert.key, hpayload]
  exact ⟨p, hfound, h.decodes p (mem_of_payload hfound), hat ▸ hp⟩

/-- The keys of an entry are the ones that are nearest. -/
theorem Indexes.keys {adverts : List Advert} (h : t.Indexes adverts) (exprId : Bytes) :
    Nearest.IsNearest (distanceTo exprId) providersPerRecord (keysFor exprId adverts)
      ((t.entry exprId).map t.keyAt) := by
  obtain ⟨keys, hnear, heq⟩ := h.entries exprId
  have hkeys : (t.entry exprId).map t.keyAt = keys := by
    have hmap := congrArg (List.map fun p : Option Bytes => (p.getD []).take 32) heq
    rw [List.map_map, List.map_map] at hmap
    refine hmap.trans ((List.map_congr_left fun key hkey => ?_).trans (List.map_id keys))
    obtain ⟨p, hp⟩ := exists_lastPayload (hnear.mem key hkey)
    obtain ⟨a, -, -, hakey, hpayload⟩ := lastPayload_eq_some hp
    rw [Function.comp_apply, hp, Option.getD_some, ← hpayload]
    exact hakey
  rwa [hkeys]

theorem mem_placed {i : Int} : i ∈ t.placed exprId id ↔
    i = id ∨ i ∈ t.entry exprId ∧ t.keyAt i ≠ t.keyAt id := by
  rw [placed, List.mem_insertionSort, List.mem_append, List.mem_filter, List.mem_singleton,
    decide_eq_true_iff, or_comm]

/-- The keys of the ids in their places are all different, and stand in the order of distance. -/
theorem sorted_placed (hexpr : exprId.length = 32)
    (hlength : ∀ i ∈ t.placed exprId id, (t.keyAt i).length = 32)
    (hnodup : ((t.entry exprId).map t.keyAt).Nodup) :
    ((t.placed exprId id).map t.keyAt).Pairwise
      fun x y => distanceTo exprId x < distanceTo exprId y := by
  have hperm : (t.placed exprId id).Perm
      ((t.entry exprId).filter (fun i => t.keyAt i ≠ t.keyAt id) ++ [id]) :=
    List.perm_insertionSort _ _
  have hdistinct : ((t.placed exprId id).map t.keyAt).Nodup := by
    rw [(hperm.map t.keyAt).nodup_iff, List.map_append, List.map_singleton]
    refine List.nodup_append.mpr ⟨hnodup.sublist (List.filter_sublist.map _),
      List.nodup_singleton _, ?_⟩
    intro x hx y hy
    obtain ⟨i, hi, rfl⟩ := List.mem_map.mp hx
    rw [List.mem_singleton.mp hy]
    exact of_decide_eq_true (List.mem_filter.mp hi).2
  have hle : (t.placed exprId id).Pairwise
      fun i j => distanceTo exprId (t.keyAt i) ≤ distanceTo exprId (t.keyAt j) := by
    have : IsTrans Int fun i j => distanceTo exprId (t.keyAt i) ≤ distanceTo exprId (t.keyAt j) :=
      ⟨fun _ _ _ => le_trans⟩
    have : Std.Total fun i j : Int =>
        distanceTo exprId (t.keyAt i) ≤ distanceTo exprId (t.keyAt j) :=
      ⟨fun _ _ => le_total _ _⟩
    exact List.pairwise_insertionSort _ _
  refine List.pairwise_map.mpr ((hle.and (List.pairwise_map.mp hdistinct)).imp_of_mem ?_)
  rintro i j hi hj ⟨hij, hne⟩
  refine lt_of_le_of_ne hij fun heq => hne ?_
  exact distanceTo_inj (hexpr.trans (hlength i hi).symm) (hexpr.trans (hlength j hj).symm) heq

/-- An advert is indexed: the entries hold what they should of it and of those before. -/
theorem Indexes.index {adverts : List Advert} {a : Advert} (h : t.Indexes adverts)
    (ha : a.WellFormed) : ∃ t', a.index t = .ok t' ∧ t'.Indexes (adverts ++ [a]) := by
  obtain ⟨id, t₁, hid, hindex, hpayload, hkept, hfrom⟩ := t.providerIdForPayload_spec a.payload
  have hentry : ∀ e, t₁.entry e = t.entry e := fun e => by rw [entry, entry, hindex]
  have hids : ∀ e, ∀ i ∈ t₁.entry e, ∃ p, t₁.providerPayloadForId i = some p ∧
      p.length = peerInfoBytes ∧ t₁.keyAt i = t.keyAt i ∧
        lastPayload e (t₁.keyAt i) adverts = some p := by
    intro e i hi
    rw [hentry] at hi
    obtain ⟨p, hp, hlength, hlast⟩ := h.payload_of_mem hi
    have hat : t₁.keyAt i = t.keyAt i := by rw [keyAt, keyAt, hp, hkept i p hp]
    exact ⟨p, hkept i p hp, hlength, hat, hat ▸ hlast⟩
  have hkey : t₁.keyAt id = a.key := by rw [keyAt, hpayload, Option.getD_some, Advert.key]
  have hrun := indexProvider_eq ha.exprId
    (fun i hi => (hids _ i hi).imp fun _ hp => ⟨hp.1, hp.2.1⟩) hpayload ha.payload
  refine ⟨_, by rw [Advert.index, hid]; exact hrun, fun p hp => ?_, fun e => ?_⟩
  · rcases hfrom p hp with hold | rfl
    · exact h.decodes p hold
    · exact ha.payload
  by_cases he : a.exprId = e
  · subst he
    have hkeys : (t₁.entry a.exprId).map t₁.keyAt = (t.entry a.exprId).map t.keyAt := by
      rw [hentry]
      exact List.map_congr_left fun i hi => (hids _ i (hentry _ ▸ hi)).choose_spec.2.2.1
    have hnear := h.keys a.exprId
    rw [← hkeys] at hnear
    have hlength : ∀ i ∈ t₁.placed a.exprId id, (t₁.keyAt i).length = 32 := by
      have htake : ∀ i p, t₁.providerPayloadForId i = some p → p.length = peerInfoBytes →
          (t₁.keyAt i).length = 32 := by
        intro i p hp hlen
        rw [keyAt, hp, Option.getD_some, List.length_take, hlen]
        rfl
      intro i hi
      rcases mem_placed.mp hi with rfl | ⟨hold, -⟩
      · exact htake i _ hpayload ha.payload
      · obtain ⟨p, hp, hlen, -⟩ := hids _ i hold
        exact htake i p hp hlen
    have hsorted := sorted_placed ha.exprId hlength (Nearest.nodup_of_sorted hnear.sorted)
    have hmem : ∀ z, z ∈ (t₁.placed a.exprId id).map t₁.keyAt ↔
        z = a.key ∨ z ∈ (t₁.entry a.exprId).map t₁.keyAt := by
      intro z
      simp only [List.mem_map, mem_placed]
      constructor
      · rintro ⟨i, rfl | ⟨hi, -⟩, rfl⟩
        · exact .inl hkey
        · exact .inr ⟨i, hi, rfl⟩
      · rintro (rfl | ⟨i, hi, rfl⟩)
        · exact ⟨id, .inl rfl, hkey⟩
        · by_cases hsame : t₁.keyAt i = t₁.keyAt id
          · exact ⟨id, .inl rfl, hsame.symm⟩
          · exact ⟨i, .inr ⟨hi, hsame⟩, rfl⟩
    have hnew := hnear.insert hsorted hmem
    rw [← keysFor_append rfl, ← List.map_take] at hnew
    refine ⟨_, hnew, ?_⟩
    rw [List.map_map]
    have hput : (⟨t₁.storageProviders, t₁.storageIndex.insert a.exprId
        ((t₁.placed a.exprId id).take providersPerRecord)⟩ : ProviderTable).entry a.exprId =
        (t₁.placed a.exprId id).take providersPerRecord := by
      rw [entry, Dict.get?_insert_self, Option.getD_some]
    rw [hput]
    refine List.map_congr_left fun i hi => ?_
    rcases mem_placed.mp (List.mem_of_mem_take hi) with rfl | ⟨hold, hne⟩
    · rw [Function.comp_apply, hkey, lastPayload_append rfl rfl]
      exact hpayload
    · obtain ⟨p, hp, -, -, hlast⟩ := hids _ i hold
      rw [Function.comp_apply, lastPayload_append_of_ne fun hcon => hne (hkey.trans hcon.2).symm,
        hlast]
      exact hp
  · obtain ⟨keys, hnear, heq⟩ := h.entries e
    have hput : (⟨t₁.storageProviders, t₁.storageIndex.insert a.exprId
        ((t₁.placed a.exprId id).take providersPerRecord)⟩ : ProviderTable).entry e =
        t.entry e := by
      rw [entry, Dict.get?_insert_of_ne _ _ he, ← hentry, entry]
    refine ⟨keys, by rwa [keysFor_append_of_ne he], ?_⟩
    rw [hput]
    have hsame : (t.entry e).map t₁.providerPayloadForId =
        (t.entry e).map t.providerPayloadForId := by
      refine List.map_congr_left fun i hi => ?_
      obtain ⟨p, hp, -⟩ := h.payload_of_mem hi
      rw [hp, hkept i p hp]
    refine hsame.trans (heq.trans (List.map_congr_left fun key _ => ?_))
    rw [lastPayload_append_of_ne fun hcon => he hcon.1]

theorem Indexes.indexed {seen adverts : List Advert} (h : t.Indexes seen)
    (hformed : ∀ a ∈ adverts, a.WellFormed) :
    ∃ t', indexed adverts t = .ok t' ∧ t'.Indexes (seen ++ adverts) := by
  induction adverts generalizing seen t with
  | nil => exact ⟨t, rfl, (List.append_nil seen).symm ▸ h⟩
  | cons a adverts ih =>
    obtain ⟨t₁, hrun, h₁⟩ := h.index (hformed a List.mem_cons_self)
    obtain ⟨t₂, hruns, h₂⟩ := ih h₁ fun b hb => hformed b (List.mem_cons_of_mem a hb)
    refine ⟨t₂, ?_, by rwa [List.append_assoc, List.singleton_append] at h₂⟩
    rw [Astreum.indexed, hrun]
    exact hruns

end ProviderTable

/-- The index entry of an expr has the nearest of the keys that were ever indexed for it, each with
the payload that was indexed last, and does not depend on the order of the adverts. -/
theorem index_names_the_nearest (adverts : List Advert) (hformed : ∀ a ∈ adverts, a.WellFormed)
    (exprId : Bytes) :
    ∃ t, indexed adverts .empty = .ok t ∧
      Nearest.IsNearest (distanceTo exprId) providersPerRecord (keysFor exprId adverts)
        ((t.entry exprId).map t.keyAt) ∧
      (t.entry exprId).length = min providersPerRecord (keysFor exprId adverts).card ∧
      (∀ id ∈ t.entry exprId, ∃ payload, t.providerPayloadForId id = some payload ∧
        lastPayload exprId (t.keyAt id) adverts = some payload) ∧
      ∀ adverts' : List Advert, (∀ a ∈ adverts', a.WellFormed) →
        keysFor exprId adverts' = keysFor exprId adverts → ∃ t', indexed adverts' .empty = .ok t' ∧
          (t'.entry exprId).map t'.keyAt = (t.entry exprId).map t.keyAt := by
  obtain ⟨t, hrun, ht⟩ := ProviderTable.indexes_empty.indexed hformed
  rw [List.nil_append] at ht
  have hnear := ht.keys exprId
  refine ⟨t, hrun, hnear, ?_, fun id hid => ?_, fun adverts' hformed' hkeys => ?_⟩
  · rw [← hnear.length_eq, List.length_map]
  · obtain ⟨payload, hpayload, -, hlast⟩ := ht.payload_of_mem hid
    exact ⟨payload, hpayload, hlast⟩
  · obtain ⟨t', hrun', ht'⟩ := ProviderTable.indexes_empty.indexed hformed'
    rw [List.nil_append] at ht'
    have hnear' := ht'.keys exprId
    rw [hkeys] at hnear'
    exact ⟨t', hrun', hnear'.unique hnear⟩

/-- Three providers of one expr, the nearest of them told last. -/
def sampleAdverts : List Advert :=
  [4, 2, 1].map fun b => ⟨zero32, List.replicate 32 b ++ List.replicate 38 0⟩

theorem sample_index_names_the_nearest : ∃ t, indexed sampleAdverts .empty = .ok t ∧
    (t.entry zero32).length = 2 := by
  obtain ⟨t, hrun, -, hlength, -⟩ := index_names_the_nearest sampleAdverts (by
    intro a ha
    obtain ⟨b, -, rfl⟩ := List.mem_map.mp ha
    exact ⟨rfl, rfl⟩) zero32
  exact ⟨t, hrun, hlength.trans (by decide)⟩

end Astreum

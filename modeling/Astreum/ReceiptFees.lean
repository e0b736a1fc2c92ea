import Astreum.Cells
import Astreum.Climb
import Astreum.ReceiptWalk
import Astreum.Rollback
import Astreum.StateRecords

namespace Astreum

open Python

section Lengths

theorem length_encodeInt (n : Int) : (encodeInt n).length = max 1 ((bitLength n + 8) / 8) := by
  rw [encodeInt, length_toBytesLittle]

theorem bitLength_le_of_lt {n : Int} {k : Nat} (hn : 0 ≤ n) (h : n < 2 ^ k) : bitLength n ≤ k := by
  rw [bitLength]
  split_ifs with hz
  · exact Nat.zero_le _
  · have hlt : n.natAbs < 2 ^ k := by
      zify
      rwa [abs_of_nonneg hn]
    exact (Nat.log2_lt (Int.natAbs_ne_zero.mpr hz)).mpr hlt

/-- The length of an encoded integer. -/
theorem encodeInt_length : Climb.Length fun n => (encodeInt n).length where
  pos := fun n => by
    rw [length_encodeInt]
    exact le_max_left _ _
  le_iff := by
    intro n k hn hk
    constructor
    · intro h
      have hfit := two_mul_natAbs_lt n
      rw [← length_encodeInt] at hfit
      have hpow : (256 : Nat) ^ (encodeInt n).length ≤ 256 ^ k := Nat.pow_le_pow_right (by decide) h
      have hlt : 2 * n.natAbs < 256 ^ k := hfit.trans_le hpow
      zify at hlt
      rwa [abs_of_nonneg hn] at hlt
    · intro h
      have hsplit : (256 : Int) ^ k = 2 * 2 ^ (8 * k - 1) := by
        rw [← pow_succ', show 8 * k - 1 + 1 = 8 * k by omega, pow_mul]
        norm_num
      rw [hsplit] at h
      have hbits : bitLength n ≤ 8 * k - 1 := bitLength_le_of_lt hn (by omega)
      rw [length_encodeInt]
      omega

end Lengths

section Prices

/-- `calculate_storage_fee`, where it has a value. -/
def storagePrice (h : Header) (bytes : Nat) : Int :=
  match h.previousBlock with
  | none => 0
  | some previous =>
    floorDiv (bytes * previous.cumulativeStake + previous.cumulativeTotalFee - 1)
      previous.cumulativeTotalFee * providersPerRecord

/-- Storage has a price. -/
def Header.Priced (h : Header) : Prop :=
  ∀ p, h.previousBlock = some p → 0 < p.cumulativeTotalFee

variable {h : Header}

theorem calculateStorageFee_eq (hpriced : h.Priced) (bytes : Nat) :
    calculateStorageFee h bytes = .ok (storagePrice h bytes) := by
  rcases hp : h.previousBlock with _ | p
  · simp only [calculateStorageFee, storagePrice, hp]
  · have hpos := hpriced p hp
    simp only [calculateStorageFee, storagePrice, hp, if_neg (not_le.mpr hpos)]

theorem priced_of_fee {bytes fee : Int} (hf : calculateStorageFee h bytes = .ok fee) :
    h.Priced := by
  intro p hp
  simp only [calculateStorageFee, hp] at hf
  split at hf
  · cases hf
  · exact not_le.mp ‹_›

theorem priced_of_walk {c : Ctx} {e : Expr} {exclude : List Bytes} {fee : Int}
    (hf : storageWalkFee c e exclude = .ok (some fee)) : c.header.Priced := by
  rw [storageWalkFee] at hf
  obtain ⟨_ | size, -, hf⟩ := except_bind_eq_ok.mp hf
  · cases hf
  · obtain ⟨fee', hfee, -⟩ := except_bind_eq_ok.mp hf
    exact priced_of_fee hfee

/-- A quotient that is rounded up. -/
theorem roundUp_le_iff {a d q : Int} (hd : 0 < d) : floorDiv (a + d - 1) d ≤ q ↔ a ≤ q * d := by
  rw [floorDiv, Int.fdiv_eq_ediv_of_nonneg _ hd.le]
  constructor
  · intro hq
    have hlt := Int.lt_ediv_add_one_mul_self (a + d - 1) hd
    have hmul : ((a + d - 1) / d + 1) * d ≤ (q + 1) * d :=
      Int.mul_le_mul_of_nonneg_right (by omega) hd.le
    rw [Int.add_mul q, Int.one_mul] at hmul
    omega
  · intro ha
    have hlt : (a + d - 1) / d < q + 1 := by
      rw [Int.ediv_lt_iff_lt_mul hd, Int.add_mul, Int.one_mul]
      omega
    omega

theorem storagePrice_price (hpriced : h.Priced)
    (hstake : ∀ p, h.previousBlock = some p → 0 ≤ p.cumulativeStake) :
    Climb.Price (storagePrice h) := by
  rcases hp : h.previousBlock with _ | p
  · have hzero : ∀ a, storagePrice h a = 0 := fun a => by simp only [storagePrice, hp]
    exact ⟨fun _ => by rw [hzero, hzero], fun _ _ => by rw [hzero, hzero]; omega⟩
  · have hd := hpriced p hp
    have hs := hstake p hp
    have hprice : ∀ a : Nat, storagePrice h a =
        floorDiv (a * p.cumulativeStake + p.cumulativeTotalFee - 1) p.cumulativeTotalFee *
          providersPerRecord := fun a => by simp only [storagePrice, hp]
    have hself : ∀ a : Nat, (a : Int) * p.cumulativeStake ≤
        floorDiv (a * p.cumulativeStake + p.cumulativeTotalFee - 1) p.cumulativeTotalFee *
          p.cumulativeTotalFee := fun a => (roundUp_le_iff hd).mp le_rfl
    constructor
    · intro a b hab
      rw [hprice, hprice]
      refine Int.mul_le_mul_of_nonneg_right ((roundUp_le_iff hd).mpr ?_) (by decide)
      have hab' : (a : Int) ≤ b := by exact_mod_cast hab
      exact (Int.mul_le_mul_of_nonneg_right hab' hs).trans (hself b)
    · intro m a hm
      rw [hprice, hprice, ← mul_assoc]
      refine Int.mul_le_mul_of_nonneg_right ((roundUp_le_iff hd).mpr ?_) (by decide)
      have hscaled := Int.mul_le_mul_of_nonneg_left (hself a) (Int.natCast_nonneg m)
      push_cast
      linarith

/-- Where the stake is not positive, storage costs nothing. -/
theorem storagePrice_nonpos (hpriced : h.Priced)
    (hstake : ∀ p, h.previousBlock = some p → p.cumulativeStake ≤ 0) (bytes : Nat) :
    storagePrice h bytes ≤ 0 := by
  rcases hp : h.previousBlock with _ | p
  · simp only [storagePrice, hp, le_refl]
  · have hd := hpriced p hp
    have hbytes : (bytes : Int) * p.cumulativeStake ≤ 0 :=
      Int.mul_nonpos_of_nonneg_of_nonpos (Int.natCast_nonneg _) (hstake p hp)
    have hzero : floorDiv (bytes * p.cumulativeStake + p.cumulativeTotalFee - 1)
        p.cumulativeTotalFee ≤ 0 := (roundUp_le_iff hd).mpr (by omega)
    simp only [storagePrice, hp]
    exact Int.mul_nonpos_of_nonpos_of_nonneg hzero (by decide)

theorem storagePrice_nonneg (hpriced : h.Priced)
    (hstake : ∀ p, h.previousBlock = some p → 0 ≤ p.cumulativeStake) (bytes : Nat) :
    0 ≤ storagePrice h bytes :=
  calculateStorageFee_nonneg (Int.natCast_nonneg bytes) hstake
    (calculateStorageFee_eq hpriced bytes)

end Prices

namespace Receipt

def withStorageFee (r : Receipt) (fee : Int) : Receipt := { r with storageFee := fee }

/-- The cells without children besides that of the storage fee. -/
def others (r : Receipt) : List Expr :=
  [int_ r.dataFee, int_ r.executionFee, refTo r.logsHash, int_ r.mint, int_ r.status.code,
    int_ r.transactionFee, refTo r.transactionHash, .symbol "receipt"]

/-- What everything besides the storage fee is charged for. -/
def otherSize (node : Node) (r : Receipt) : Nat :=
  64 * 9 + (r.others.toFinset.filter fun x => node.hash x ∉ r.named).sum leafSize

/-- The cell of the fee is no other cell of the receipt, and not one that it only names. -/
def Counted (node : Node) (r : Receipt) (fee : Int) : Prop :=
  int_ fee ∉ r.others ∧ node.hash (int_ fee) ∉ r.named

instance (node : Node) (r : Receipt) (fee : Int) : Decidable (r.Counted node fee) :=
  inferInstanceAs (Decidable (_ ∧ _))

variable {node : Node} {r : Receipt}

theorem leaves_withStorageFee (fee : Int) :
    (r.withStorageFee fee).leaves.toFinset = insert (int_ fee) r.others.toFinset := by
  ext x
  simp only [leaves, fields, others, withStorageFee, List.cons_append, List.nil_append,
    List.toFinset_cons, List.toFinset_nil, Finset.mem_insert]
  tauto

theorem walkSize_withStorageFee (fee : Int) : (r.withStorageFee fee).walkSize node =
    r.otherSize node + if r.Counted node fee then (encodeInt fee).length else 0 := by
  have hnamed : (r.withStorageFee fee).named = r.named := rfl
  rw [walkSize, leaves_withStorageFee, hnamed, otherSize, Finset.filter_insert]
  by_cases hfee : node.hash (int_ fee) ∈ r.named
  · rw [if_neg (not_not.mpr hfee), if_neg fun h => h.2 hfee, Nat.add_zero]
  · rw [if_pos hfee]
    by_cases hother : int_ fee ∈ r.others
    · have hmem : int_ fee ∈ r.others.toFinset.filter fun x => node.hash x ∉ r.named :=
        Finset.mem_filter.mpr ⟨List.mem_toFinset.mpr hother, hfee⟩
      rw [Finset.insert_eq_of_mem hmem, if_neg fun h => h.1 hother, Nat.add_zero]
    · have hnot : int_ fee ∉ r.others.toFinset.filter fun x => node.hash x ∉ r.named :=
        fun h => hother (List.mem_toFinset.mp (Finset.mem_filter.mp h).1)
      have hsize : leafSize (int_ fee) = (encodeInt fee).length := rfl
      rw [Finset.sum_insert hnot, if_pos ⟨hother, hfee⟩, hsize, Nat.add_comm (encodeInt fee).length,
        Nat.add_assoc]

/-- The storage fee of a receipt's own cells. -/
def ownFee (c : Ctx) (r : Receipt) (fee : Int) : Int :=
  storagePrice c.header ((r.withStorageFee fee).walkSize c.node)

/-- The storage fee after so many rounds of `receipt_at_fixed_point`. -/
def feeAfter (c : Ctx) (r : Receipt) (base : Int) (n : Nat) : Int := Climb.after base (r.ownFee c) n

variable {c : Ctx} {base fee : Int}

theorem ownFee_charges : Climb.Charges (r.ownFee c) (storagePrice c.header)
    (fun n => (encodeInt n).length) (r.otherSize c.node) (r.Counted c.node) where
  whole := fun x hx => by rw [ownFee, walkSize_withStorageFee, if_pos hx]
  without := fun x hx => by rw [ownFee, walkSize_withStorageFee, if_neg hx, Nat.add_zero]

theorem storageWalkFee_expr (hpriced : c.header.Priced)
    (hapart : (r.withStorageFee fee).Apart c.node) (hfuel : 32 < c.node.fuel) :
    storageWalkFee c (r.withStorageFee fee).expr r.named = .ok (some (r.ownFee c fee)) := by
  have hsize := storageWalkSize_expr hapart hfuel
  rw [storageWalkFee, show r.named = (r.withStorageFee fee).named from rfl, hsize]
  simp only [py_ok_bind, calculateStorageFee_eq hpriced]
  rfl

/-- The loop is at the fee after its rounds. -/
theorem receiptRounds_eq (hpriced : c.header.Priced) (hfuel : 32 < c.node.fuel) {n k : Nat}
    (hapart : ∀ j, k ≤ j → j < k + n → (r.withStorageFee (r.feeAfter c base j)).Apart c.node) :
    receiptRounds c r.withStorageFee base r.named n (r.feeAfter c base k) =
      .ok (some (r.withStorageFee (r.feeAfter c base (k + n)))) := by
  induction n generalizing k with
  | zero => rfl
  | succ n ih =>
    have hfee := storageWalkFee_expr hpriced (hapart k le_rfl (by omega)) hfuel
    rw [receiptRounds, hfee]
    simp only [py_ok_bind]
    split
    · rename_i hequal
      have hsettled : Climb.Settled base (r.ownFee c) (r.feeAfter c base k) := hequal.le
      have hsame : r.feeAfter c base (k + (n + 1)) = r.feeAfter c base k :=
        Climb.after_of_settled hsettled (by omega)
      rw [hsame]
      rfl
    · have hnext : max (r.feeAfter c base k) (base + r.ownFee c (r.feeAfter c base k)) =
          r.feeAfter c base (k + 1) := Climb.after_succ.symm
      rw [hnext, ih fun j hj hlt => hapart j (by omega) (by omega),
        show k + 1 + n = k + (n + 1) by omega]

/-- The rounds settle the fee within four, whatever storage costs. -/
theorem settled_after (hpriced : c.header.Priced)
    (hbase : ∀ p, c.header.previousBlock = some p → 0 < p.cumulativeStake → 0 ≤ base) :
    ∃ k ≤ 4, Climb.Settled base (r.ownFee c) (r.feeAfter c base k) := by
  have hother : 1 ≤ r.otherSize c.node := by
    rw [otherSize]
    omega
  by_cases hfree : ∀ p, c.header.previousBlock = some p → p.cumulativeStake ≤ 0
  · have hown := storagePrice_nonpos hpriced hfree
      ((r.withStorageFee base).walkSize c.node)
    refine ⟨0, by omega, ?_⟩
    change base + r.ownFee c base ≤ base
    rw [ownFee]
    omega
  · obtain ⟨p, hp, hstake⟩ : ∃ p, c.header.previousBlock = some p ∧ 0 < p.cumulativeStake := by
      by_contra hnone
      exact hfree fun p hp => not_lt.mp fun hlt => hnone ⟨p, hp, hlt⟩
    refine Climb.exists_settled ownFee_charges (storagePrice_price hpriced fun q hq => ?_)
      encodeInt_length (hbase p hp hstake) hother
    obtain rfl := Option.some.inj (hp.symm.trans hq)
    exact hstake.le

/-- The receipt that is found pays for the base and for its own cells. -/
theorem covers (hpriced : c.header.Priced) (hfuel : 32 < c.node.fuel)
    (hbase : ∀ p, c.header.previousBlock = some p → 0 < p.cumulativeStake → 0 ≤ base)
    (hapart : ∀ k ≤ 8, (r.withStorageFee (r.feeAfter c base k)).Apart c.node) :
    ∃ own, storageWalkFee c (r.withStorageFee (r.feeAfter c base 8)).expr r.named =
      .ok (some own) ∧ base + own ≤ r.feeAfter c base 8 := by
  obtain ⟨k, hk, hsettled⟩ := settled_after (r := r) hpriced hbase
  exact ⟨_, storageWalkFee_expr hpriced (hapart 8 le_rfl) hfuel,
    Climb.settled_of_settled hsettled (by omega)⟩

end Receipt

section Transfers

variable (c : Ctx) (t : Transaction)

/-- The receipt of a transfer, which runs nothing and mints nothing, without its storage fee. -/
def transferReceipt (transactionHash : Bytes) (status : Status) : Receipt :=
  buildReceipt transactionHash 1 0 0 zero32 status 0

/-- `calculate_transaction_costs`. -/
def calculateTransactionCosts : Py Int := do
  let some txFee ← storageWalkFee c t.expr [] | .error .valueError
  let transactionHash ← match t.hash with
    | some h => if h = [] then c.node.hash? t.expr else .ok h
    | none => c.node.hash? t.expr
  let some receipt ← receiptAtFixedPoint c
    (buildReceipt transactionHash 1 0 0 zero32 .success) txFee [transactionHash, zero32]
    | .error .valueError
  return receipt.storageFee

/-- What a transfer is charged for the bloom tree and for the accounts that it makes. -/
def bloomAndAccountFees (transactionHash : Bytes) (h : Handled)
    (involved involvedAccounts : List Bytes) : Py Int := do
  let bloomFee ← calculateStorageFee c.header
    (2 * (makeSearchVariants (some transactionHash) t.sender t.recipient zero32).length)
  let batchFee ← batchesFee c (if h.status = .success then
    involvedBatches t transactionHash involved involvedAccounts else [])
  let fresh ← recipientFee c h.recipient
  return bloomFee + batchFee + fresh.getD 0

/-- A transfer was handled, taken back where that failed, and priced for these bloom and account
fees. -/
def TransferPriced (transactionHash : Bytes) (other : Int) (p : Priced) : Prop :=
  t.code = .transfer ∧ t.pendingBloomKeys = [] ∧
    ∃ keys apply g s s' h snapshot b b' h' balance involved involvedAccounts,
      runHandler c t false keys apply transactionHash g s = (.ok h, s') ∧
      rollbackFailed snapshot h b = (.ok h', b') ∧
      bloomAndAccountFees c t transactionHash h' involved involvedAccounts = .ok other ∧
      priceTransaction c t transactionHash h' balance involved involvedAccounts = .ok p

variable {c t} {transactionHash : Bytes} {status : Status} {amount balance : Int}
  {recipient : Recipient} {involved involvedAccounts : List Bytes} {p : Priced} {base : Int}

theorem Running.check_storageFee (r : Running) (balance owed : Int) :
    (r.check balance owed).storageFee = r.storageFee := by
  rw [Running.check]
  split <;> rfl

theorem Running.add_storageFee (r : Running) (fee : Option Int) :
    (r.add fee).storageFee = r.storageFee + fee.getD 0 := by
  cases fee with
  | none => exact (Int.add_zero _).symm
  | some fee => rfl

/-- The receipts of a transfer cost the same for either status: its cells besides the storage fee
are the same. -/
theorem ownFee_transferReceipt : (transferReceipt transactionHash status).ownFee c =
    (transferReceipt transactionHash .success).ownFee c := by
  funext fee
  have hleaves : ((transferReceipt transactionHash status).withStorageFee fee).leaves.toFinset =
      ((transferReceipt transactionHash .success).withStorageFee fee).leaves.toFinset := by
    rw [Receipt.leaves_withStorageFee, Receipt.leaves_withStorageFee]
    ext x
    cases status with
    | success => rfl
    | failed =>
      simp only [transferReceipt, buildReceipt, Receipt.others, Status.code, ite_self,
        List.toFinset_cons, List.toFinset_nil, Finset.mem_insert]
      tauto
  rw [Receipt.ownFee, Receipt.ownFee, Receipt.walkSize, Receipt.walkSize, hleaves]
  rfl

theorem mem_others_transferReceipt {fee : Int} :
    int_ fee ∈ (transferReceipt transactionHash .success).others ↔ fee = 0 ∨ fee = 1 := by
  simp [transferReceipt, buildReceipt, Receipt.others, Status.code, int_, typed, refTo]

/-- A greater fee of a transfer makes no smaller receipt, where its cell is not named: only the
least fees are among the other cells. -/
theorem rising_transferReceipt (hpriced : c.header.Priced)
    (hstake : ∀ p, c.header.previousBlock = some p → 0 ≤ p.cumulativeStake) (hbase : 0 ≤ base) :
    Climb.Rising base ((transferReceipt transactionHash .success).ownFee c)
      fun fee => c.node.hash (int_ fee) ∉ (transferReceipt transactionHash .success).named := by
  intro x y hx hxy hy
  rw [Receipt.ownFee, Receipt.ownFee]
  refine (storagePrice_price hpriced hstake).mono ?_
  rw [Receipt.walkSize_withStorageFee, Receipt.walkSize_withStorageFee]
  by_cases hcounted : (transferReceipt transactionHash .success).Counted c.node x
  · have hx₀ : x ≠ 0 ∧ x ≠ 1 := not_or.mp fun h => hcounted.1 (mem_others_transferReceipt.mpr h)
    have hy₀ : int_ y ∉ (transferReceipt transactionHash .success).others := by
      rw [mem_others_transferReceipt]
      omega
    have hlength : (encodeInt x).length ≤ (encodeInt y).length := by
      refine (encodeInt_length.le_iff (by omega) (encodeInt_length.pos y)).mpr ?_
      have hlt := encodeInt_length.lt (show 0 ≤ y by omega)
      omega
    rw [if_pos hcounted, if_pos ⟨hy₀, hy⟩]
    omega
  · rw [if_neg hcounted]
    omega

/-- Eight rounds find the fee of a transfer exactly. -/
theorem feeAfter_eq (hpriced : c.header.Priced)
    (hstake : ∀ p, c.header.previousBlock = some p → 0 ≤ p.cumulativeStake) (hbase : 0 ≤ base)
    (hnamed : ∀ k ≤ 8, c.node.hash
      (int_ ((transferReceipt transactionHash .success).feeAfter c base k)) ∉
        (transferReceipt transactionHash .success).named) :
    (transferReceipt transactionHash .success).feeAfter c base 8 =
      base + (transferReceipt transactionHash .success).ownFee c
        ((transferReceipt transactionHash .success).feeAfter c base 8) := by
  obtain ⟨k, hk, hsettled⟩ := Receipt.settled_after (r := transferReceipt transactionHash .success)
    hpriced fun _ _ _ => hbase
  apply le_antisymm
  · exact Climb.after_le (rising_transferReceipt hpriced hstake hbase)
      (storagePrice_nonneg hpriced hstake _) hnamed
  · exact Climb.settled_of_settled hsettled (by omega)

theorem not_named_of_apart {fee : Int}
    (hapart : ((transferReceipt transactionHash .success).withStorageFee fee).Apart c.node)
    (hne : c.node.hash (int_ fee) ≠ transactionHash) :
    c.node.hash (int_ fee) ∉ (transferReceipt transactionHash .success).named := by
  have hleaf : int_ fee ∈
      ((transferReceipt transactionHash .success).withStorageFee fee).leaves := by
    simp [Receipt.leaves, Receipt.fields, Receipt.withStorageFee]
  have hzero := hapart.nonzero _ (List.mem_append_right _ hleaf)
  have hnamed : (transferReceipt transactionHash .success).named = [transactionHash, zero32] := rfl
  rw [hnamed, List.mem_cons, List.mem_singleton, not_or]
  exact ⟨hne, hzero⟩

/-- The price of a transfer is found from its parts. -/
theorem priceTransaction_transfer {other txFee : Int} (hkeys : t.pendingBloomKeys = [])
    (htx : storageWalkFee c t.expr [] = .ok (some txFee))
    (hother : bloomAndAccountFees c t transactionHash (handled t status amount recipient) involved
      involvedAccounts = .ok other)
    (hp : priceTransaction c t transactionHash (handled t status amount recipient) balance involved
      involvedAccounts = .ok p) :
    ∃ late found, receiptAtFixedPoint c (transferReceipt transactionHash late).withStorageFee
        (txFee + other) [transactionHash, zero32] = .ok found ∧
      ∀ receipt, found = some receipt → p.receipt = receipt := by
  obtain ⟨bloomFee, hbloom, hother⟩ := except_bind_eq_ok.mp hother
  obtain ⟨batchFee, hbatch, hother⟩ := except_bind_eq_ok.mp hother
  obtain ⟨fresh, hfresh, hother⟩ := except_bind_eq_ok.mp hother
  obtain rfl := Except.ok.inj hother
  simp only [priceTransaction] at hp
  obtain ⟨bloomFee', hbloom', hp⟩ := except_bind_eq_ok.mp hp
  obtain ⟨batchFee', hbatch', hp⟩ := except_bind_eq_ok.mp hp
  obtain ⟨keysFee, hkeysFee, hp⟩ := except_bind_eq_ok.mp hp
  obtain ⟨txFee', htx', hp⟩ := except_bind_eq_ok.mp hp
  obtain ⟨logs, hlogs, hp⟩ := except_bind_eq_ok.mp hp
  obtain ⟨fresh', hfresh', hp⟩ := except_bind_eq_ok.mp hp
  obtain ⟨logsHash, hhash, hp⟩ := except_bind_eq_ok.mp hp
  obtain ⟨found, hfound, hp⟩ := except_bind_eq_ok.mp hp
  obtain rfl : bloomFee = bloomFee' := Except.ok.inj (hbloom.symm.trans hbloom')
  obtain rfl : batchFee = batchFee' := Except.ok.inj (hbatch.symm.trans hbatch')
  obtain rfl : fresh = fresh' := Except.ok.inj (hfresh.symm.trans hfresh')
  obtain rfl : some txFee = txFee' := Except.ok.inj (htx.symm.trans htx')
  obtain rfl : some 0 = logs := Except.ok.inj hlogs
  obtain rfl : zero32 = logsHash := Except.ok.inj hhash
  obtain rfl : 0 = keysFee := by
    rw [pendingBloomFee, if_pos (.inr hkeys)] at hkeysFee
    exact Except.ok.inj hkeysFee
  simp only [handled, ne_eq, not_true_eq_false, false_and, if_false, Option.isSome_some,
    if_true] at hfound hp
  generalize hrunning : Running.add _ fresh = running at hfound hp
  have hfee : running.storageFee = txFee + (bloomFee + batchFee + fresh.getD 0) := by
    rw [← hrunning]
    simp only [Running.add_storageFee, Running.check_storageFee, Option.getD_some]
    omega
  rw [hfee] at hfound
  have hbuild : buildReceipt transactionHash (1 + 0) 0 0 zero32 running.status =
      (transferReceipt transactionHash running.status).withStorageFee := by
    funext fee
    simp [transferReceipt, buildReceipt, Receipt.withStorageFee]
  rw [hbuild] at hfound
  refine ⟨running.status, found, hfound, fun receipt hreceipt => ?_⟩
  rw [hreceipt] at hp
  obtain rfl := Except.ok.inj hp
  rfl

/-- What is priced of a transfer: its handler runs nothing and mints nothing, and neither does what
is left of it after a rollback. -/
theorem handled_of_transfer {keys : List Bytes} {apply : NestedApply} {g : Guarded}
    {h h' : Handled} {s s' : Ledger} {b b' : Block} {snapshot : Ledger}
    (hcode : t.code = .transfer)
    (hrun : runHandler c t false keys apply transactionHash g s = (.ok h, s'))
    (hkept : rollbackFailed snapshot h b = (.ok h', b')) :
    ∃ status amount recipient, h' = handled t status amount recipient := by
  obtain ⟨status, amount, recipient, rfl⟩ :
      ∃ status amount recipient, h = handled t status amount recipient := by
    simp only [runHandler, hcode, applyTransfer] at hrun
    obtain ⟨recipient, s₁, -, hrun⟩ := Eff.bind_eq_ok.mp hrun
    obtain ⟨recipient', s₂, -, hrun⟩ := Eff.bind_eq_ok.mp hrun
    exact ⟨_, _, _, (Except.ok.inj (Prod.mk.inj hrun).1).symm⟩
  rw [rollbackFailed] at hkept
  split at hkept
  · exact ⟨status, amount, recipient, (Except.ok.inj (Prod.mk.inj hkept).1).symm⟩
  · rw [rollback] at hkept
    obtain ⟨_, b₁, -, hkept⟩ := Eff.bind_eq_ok.mp hkept
    exact ⟨.failed, 0, .none, (Except.ok.inj (Prod.mk.inj hkept).1).symm⟩

theorem bloomAndAccountFees_nonneg {h : Handled} {other : Int}
    (hstake : ∀ p, c.header.previousBlock = some p → 0 ≤ p.cumulativeStake)
    (hother : bloomAndAccountFees c t transactionHash h involved involvedAccounts = .ok other) :
    0 ≤ other := by
  obtain ⟨bloomFee, hbloom, hother⟩ := except_bind_eq_ok.mp hother
  obtain ⟨batchFee, hbatch, hother⟩ := except_bind_eq_ok.mp hother
  obtain ⟨fresh, hfresh, hother⟩ := except_bind_eq_ok.mp hother
  obtain rfl := Except.ok.inj hother
  have hbloomFee := calculateStorageFee_nonneg (by omega) hstake hbloom
  have hbatchFee := batchesFee_nonneg hstake hbatch
  have hfreshFee : 0 ≤ fresh.getD 0 := by
    cases fresh with
    | none => exact le_rfl
    | some fee => exact recipientFee_nonneg hstake hfresh fee rfl
  omega

theorem storageWalkFee_transferReceipt {fee own : Int} (hpriced : c.header.Priced)
    (hfuel : 32 < c.node.fuel)
    (howned : (transferReceipt transactionHash .success).ownFee c fee = own)
    (hapart : ((transferReceipt transactionHash status).withStorageFee fee).Apart c.node) :
    storageWalkFee c ((transferReceipt transactionHash status).withStorageFee fee).expr
      [transactionHash, zero32] = .ok (some own) := by
  have hfee := Receipt.storageWalkFee_expr hpriced hapart hfuel
  rw [ownFee_transferReceipt, howned] at hfee
  exact hfee

/-- What the client finds for a transfer. -/
theorem calculateTransactionCosts_eq {cost txFee : Int} (hfuel : 32 < c.node.fuel)
    (hhash : t.hash = some transactionHash) (hne : transactionHash ≠ [])
    (htx : storageWalkFee c t.expr [] = .ok (some txFee)) (hpriced : c.header.Priced)
    (hapart : ∀ k ≤ 8, ((transferReceipt transactionHash .success).withStorageFee
      ((transferReceipt transactionHash .success).feeAfter c txFee k)).Apart c.node)
    (hcost : calculateTransactionCosts c t = .ok cost) :
    cost = (transferReceipt transactionHash .success).feeAfter c txFee 8 := by
  have hrounds := Receipt.receiptRounds_eq (n := 8) (k := 0) hpriced hfuel
    fun j _ hj => hapart j (by omega)
  have hfixed : receiptAtFixedPoint c (buildReceipt transactionHash 1 0 0 zero32 .success) txFee
      [transactionHash, zero32] = _ := hrounds
  rw [calculateTransactionCosts, htx] at hcost
  simp only [py_ok_bind, hhash, if_neg hne, hfixed] at hcost
  exact (Except.ok.inj hcost).symm

end Transfers

section Samples

/-- A block after one with fees of 51 on a stake of 2. -/
def pricedHeader : Header :=
  { firstHeader with previousBlock := some ⟨none, 0, [⟨51, 2, 0, 0, 0, 0⟩], 0⟩ }

def pricedCtx : Ctx := ⟨sampleNode 60, pricedHeader⟩

def aliceTransfers : Transaction := aliceSends .transfer bobAddress 5

/-- What is left to price of a transfer to an address without an account. -/
def handledTransfer : Handled :=
  handled aliceTransfers .success 5 (.fresh { createAccount 0 zero32 with balance := 5 })

def pricedTransfer : Py Priced :=
  priceTransaction pricedCtx aliceTransfers aliceHash handledTransfer 1000 [] []

/-- What the prices of the transfer come to, evaluated at once. -/
theorem aliceTransfers_values :
    bloomAndAccountFees pricedCtx aliceTransfers aliceHash handledTransfer [] [] = .ok 34 ∧
    (∀ base ∈ [(64 : Int), 98], (∀ k ≤ 2,
      (transferReceipt aliceHash .success).feeAfter pricedCtx base k ∈
        [(64 : Int), 98, 120, 154, 156]) ∧
      base + (transferReceipt aliceHash .success).ownFee pricedCtx
        ((transferReceipt aliceHash .success).feeAfter pricedCtx base 2) ≤
          (transferReceipt aliceHash .success).feeAfter pricedCtx base 2) ∧
    (∀ fee ∈ [(64 : Int), 98, 120, 154, 156], (∀ status ∈ [Status.success, .failed],
      ((transferReceipt aliceHash status).withStorageFee fee).Apart pricedCtx.node) ∧
        pricedCtx.node.hash (int_ fee) ≠ aliceHash) ∧
    pricedTransfer.map (fun p => p.receipt.storageFee) = .ok 156 := by
  decide +kernel

theorem aliceTransfers_priced {p : Priced} (hp : pricedTransfer = .ok p) :
    TransferPriced pricedCtx aliceTransfers aliceHash 34 p := by
  have hrun : (runHandler pricedCtx aliceTransfers false [] (fun _ _ => .raise .valueError)
      aliceHash ⟨.success, 5, true⟩ (aliceBlock 1000).ledger).1 = .ok handledTransfer := rfl
  exact ⟨rfl, rfl, [], _, ⟨.success, 5, true⟩, (aliceBlock 1000).ledger, _, handledTransfer,
    (aliceBlock 1000).ledger, aliceBlock 1000, _, handledTransfer, 1000, [], [],
    Eff.eq_of_fst hrun, rfl, aliceTransfers_values.1, hp⟩

/-- Two rounds settle the fee of the transfer, for the client and for the network. -/
theorem aliceTransfers_fees {base : Int} (hbase : base ∈ [(64 : Int), 98]) (k : Nat) :
    (transferReceipt aliceHash .success).feeAfter pricedCtx base k ∈
      [(64 : Int), 98, 120, 154, 156] := by
  obtain ⟨hrounds, hsettled⟩ := aliceTransfers_values.2.1 base hbase
  by_cases hk : k ≤ 2
  · exact hrounds k hk
  · have hsame : (transferReceipt aliceHash .success).feeAfter pricedCtx base k =
        (transferReceipt aliceHash .success).feeAfter pricedCtx base 2 :=
      Climb.after_of_settled hsettled (by omega)
    rw [hsame]
    exact hrounds 2 le_rfl

theorem aliceTransfers_apart {base : Int} (hbase : base ∈ [(64 : Int), 98]) (status : Status)
    (k : Nat) :
    ((transferReceipt aliceHash status).withStorageFee
      ((transferReceipt aliceHash .success).feeAfter pricedCtx base k)).Apart pricedCtx.node ∧
    pricedCtx.node.hash
      (int_ ((transferReceipt aliceHash .success).feeAfter pricedCtx base k)) ≠ aliceHash := by
  obtain ⟨hapart, hhash⟩ := aliceTransfers_values.2.2.1 _ (aliceTransfers_fees hbase k)
  exact ⟨hapart status (by cases status <;> decide), hhash⟩

theorem aliceTransfers_charged :
    ∃ p, TransferPriced pricedCtx aliceTransfers aliceHash 34 p ∧ p.receipt.storageFee = 156 := by
  have hfee := aliceTransfers_values.2.2.2
  rcases hrun : pricedTransfer with e | p
  · rw [hrun] at hfee
    cases hfee
  · rw [hrun] at hfee
    exact ⟨p, aliceTransfers_priced hrun, Except.ok.inj hfee⟩

end Samples

end Astreum

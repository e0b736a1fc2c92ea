import Astreum.Cells

namespace Astreum

/-- `_varint_bytes`. -/
def varintBytes (value : Nat) : Bytes :=
  if value < 128 then [UInt8.ofNat value]
  else UInt8.ofNat (value % 128 + 128) :: varintBytes (value / 128)
termination_by value
decreasing_by omega

/-- The loop of `_read_varint`, with the bytes that are left for the varint. -/
def readVarintFrom : Nat → Bytes → Py (Nat × Bytes)
  | 0, _ => .error .valueError
  | _ + 1, [] => .error .valueError
  | left + 1, b :: data =>
    if b.toNat < 128 then .ok (b.toNat, data)
    else do
      let (high, data) ← readVarintFrom left data
      return (b.toNat % 128 + 128 * high, data)

def readVarint (data : Bytes) : Py (Nat × Bytes) := readVarintFrom 3 data

section Varints

variable {left value : Nat} {data rest : Bytes}

theorem toNat_ofNat_of_lt {n : Nat} (h : n < 256) : (UInt8.ofNat n).toNat = n := by
  rw [UInt8.toNat_ofNat']
  exact Nat.mod_eq_of_lt h

/-- A varint is read as the number that it was written for. -/
theorem readVarintFrom_varintBytes (hleft : 0 < left) (h : value < 128 ^ left) :
    readVarintFrom left (varintBytes value ++ rest) = .ok (value, rest) := by
  induction left generalizing value with
  | zero => exact absurd hleft (lt_irrefl 0)
  | succ left ih =>
    rw [varintBytes]
    split
    · rename_i hsmall
      rw [List.cons_append, readVarintFrom, toNat_ofNat_of_lt (by omega), if_pos hsmall]
      rfl
    · rename_i hbig
      have hquot : value / 128 < 128 ^ left := by
        rw [Nat.div_lt_iff_lt_mul (by decide), ← Nat.pow_succ]
        exact h
      have hmore : 0 < left := by
        refine Nat.pos_of_ne_zero fun hzero => ?_
        rw [hzero, pow_zero] at hquot
        omega
      rw [List.cons_append, readVarintFrom, toNat_ofNat_of_lt (by omega), if_neg (by omega),
        ih hmore hquot]
      simp only [py_ok_bind]
      rw [show (value % 128 + 128) % 128 + 128 * (value / 128) = value by omega]
      rfl

/-- What was read stays so with more behind it. -/
theorem readVarintFrom_append (h : readVarintFrom left data = .ok (value, rest)) (more : Bytes) :
    readVarintFrom left (data ++ more) = .ok (value, rest ++ more) := by
  induction left generalizing data value with
  | zero => cases h
  | succ left ih =>
    cases data with
    | nil => cases h
    | cons b data =>
      rw [readVarintFrom] at h
      rw [List.cons_append, readVarintFrom]
      split at h
      · rename_i hsmall
        obtain ⟨rfl, rfl⟩ := Prod.mk.inj (Except.ok.inj h)
        rw [if_pos hsmall]
      · rename_i hbig
        obtain ⟨⟨high, found⟩, hread, h⟩ := except_bind_eq_ok.mp h
        obtain ⟨rfl, rfl⟩ := Prod.mk.inj (Except.ok.inj h)
        rw [if_neg hbig, ih hread]
        rfl

/-- What was read is a field in front of the rest. -/
theorem readVarintFrom_field (h : readVarintFrom left data = .ok (value, rest)) :
    ∃ field, data = field ++ rest ∧ readVarintFrom left field = .ok (value, []) := by
  induction left generalizing data value with
  | zero => cases h
  | succ left ih =>
    cases data with
    | nil => cases h
    | cons b data =>
      rw [readVarintFrom] at h
      split at h
      · rename_i hsmall
        obtain ⟨rfl, rfl⟩ := Prod.mk.inj (Except.ok.inj h)
        exact ⟨[b], rfl, by rw [readVarintFrom, if_pos hsmall]⟩
      · rename_i hbig
        obtain ⟨⟨high, found⟩, hread, h⟩ := except_bind_eq_ok.mp h
        obtain ⟨rfl, rfl⟩ := Prod.mk.inj (Except.ok.inj h)
        obtain ⟨field, rfl, hfield⟩ := ih hread
        exact ⟨b :: field, rfl, by rw [readVarintFrom, if_neg hbig, hfield]; rfl⟩

/-- The varint of a number is the shortest field that is read as it, and the only one of its
length. -/
theorem varintBytes_shortest (h : readVarintFrom left data = .ok (value, [])) :
    data = varintBytes value ∨ (varintBytes value).length < data.length := by
  induction left generalizing data value with
  | zero => cases h
  | succ left ih =>
    cases data with
    | nil => cases h
    | cons b data =>
      rw [readVarintFrom] at h
      split at h
      · rename_i hsmall
        obtain ⟨rfl, rfl⟩ := Prod.mk.inj (Except.ok.inj h)
        rw [varintBytes, if_pos hsmall, UInt8.ofNat_toNat]
        exact .inl rfl
      · rename_i hbig
        obtain ⟨⟨high, found⟩, hread, h⟩ := except_bind_eq_ok.mp h
        obtain ⟨rfl, rfl⟩ := Prod.mk.inj (Except.ok.inj h)
        have hb : b.toNat < 256 := b.toNat_lt
        have hhigh := ih hread
        rw [varintBytes]
        split
        · have hpos : data ≠ [] := by
            rintro rfl
            cases left <;> cases hread
          exact .inr (by simpa using List.length_pos_iff.mpr hpos)
        · have hquot : (b.toNat % 128 + 128 * high) / 128 = high := by omega
          have hlow : (b.toNat % 128 + 128 * high) % 128 + 128 = b.toNat := by omega
          rw [hquot, hlow, UInt8.ofNat_toNat]
          rcases hhigh with rfl | hlonger
          · exact .inl rfl
          · exact .inr (by simpa using hlonger)

theorem readVarintFrom_length (h : readVarintFrom left data = .ok (value, [])) :
    data.length ≤ left := by
  induction left generalizing data value with
  | zero => cases h
  | succ left ih =>
    cases data with
    | nil => cases h
    | cons b data =>
      rw [readVarintFrom] at h
      rw [List.length_cons]
      split at h
      · obtain ⟨-, rfl⟩ := Prod.mk.inj (Except.ok.inj h)
        exact Nat.succ_le_succ (Nat.zero_le _)
      · obtain ⟨⟨high, found⟩, hread, h⟩ := except_bind_eq_ok.mp h
        obtain ⟨-, rfl⟩ := Prod.mk.inj (Except.ok.inj h)
        exact Nat.succ_le_succ (ih hread)

theorem readVarintFrom_error {err : PyError} (h : readVarintFrom left data = .error err) :
    err = .valueError := by
  induction left generalizing data with
  | zero => exact (Except.error.inj h).symm
  | succ left ih =>
    cases data with
    | nil => exact (Except.error.inj h).symm
    | cons b data =>
      rw [readVarintFrom] at h
      split at h
      · cases h
      · rcases hread : readVarintFrom left data with err' | p
        · rw [hread] at h
          obtain rfl := Except.error.inj h
          exact ih hread
        · rw [hread] at h
          cases h

theorem varintBytes_of_lt (h : value < 128) : varintBytes value = [UInt8.ofNat value] := by
  rw [varintBytes, if_pos h]

theorem varintBytes_of_le (h : 128 ≤ value) : varintBytes value =
    UInt8.ofNat (value % 128 + 128) :: varintBytes (value / 128) := by
  rw [varintBytes, if_neg (by omega)]

theorem length_varintBytes_pos (value : Nat) : 0 < (varintBytes value).length := by
  rw [varintBytes]
  split <;> simp

theorem length_varintBytes_mono {m n : Nat} (h : m ≤ n) :
    (varintBytes m).length ≤ (varintBytes n).length := by
  induction n using Nat.strong_induction_on generalizing m with
  | _ n ih =>
    by_cases hm : m < 128
    · rw [varintBytes_of_lt hm]
      exact length_varintBytes_pos n
    · have hquot := ih (n / 128) (by omega) (Nat.div_le_div_right h : m / 128 ≤ n / 128)
      rw [varintBytes_of_le (by omega : 128 ≤ m), varintBytes_of_le (by omega : 128 ≤ n)]
      simpa using hquot

end Varints

section Readers

variable {α β : Type}

/-- A reader reads a field in front of the bytes, whatever is behind it. -/
def PrefixReader (read : Bytes → Py (α × Bytes)) : Prop :=
  ∀ data v rest, read data = .ok (v, rest) →
    ∃ field, data = field ++ rest ∧ ∀ more, read (field ++ more) = .ok (v, more)

/-- What raises nothing but a `ValueError`. -/
def OnlyValueError (x : Py α) : Prop := ∀ err, x = .error err → err = .valueError

variable {read : Bytes → Py (α × Bytes)} {next : α → Bytes → Py (β × Bytes)}

theorem PrefixReader.pure (v : α) : PrefixReader fun data => .ok (v, data) := by
  intro data v' rest h
  obtain ⟨rfl, rfl⟩ := Prod.mk.inj (Except.ok.inj h)
  exact ⟨[], rfl, fun more => rfl⟩

theorem PrefixReader.bind (hread : PrefixReader read) (hnext : ∀ v, PrefixReader (next v)) :
    PrefixReader fun data => read data >>= fun p => next p.1 p.2 := by
  intro data v rest h
  obtain ⟨⟨v₁, data₁⟩, hfirst, hsecond⟩ := except_bind_eq_ok.mp h
  obtain ⟨field, rfl, hfield⟩ := hread _ _ _ hfirst
  obtain ⟨field₁, rfl, hfield₁⟩ := hnext v₁ _ _ _ hsecond
  refine ⟨field ++ field₁, by rw [List.append_assoc], fun more => ?_⟩
  dsimp only
  rw [List.append_assoc, hfield]
  exact hfield₁ more

/-- A check between two reads. -/
theorem PrefixReader.check (hread : PrefixReader read) (x : Py Unit) :
    PrefixReader fun data => x >>= fun _ => read data := by
  intro data v rest h
  obtain ⟨u, hx, hsecond⟩ := except_bind_eq_ok.mp h
  obtain ⟨field, rfl, hfield⟩ := hread _ _ _ hsecond
  refine ⟨field, rfl, fun more => ?_⟩
  dsimp only
  rw [hx]
  exact hfield more

theorem OnlyValueError.ok (v : α) : OnlyValueError (.ok v : Py α) := fun _ h => nomatch h

theorem OnlyValueError.error : OnlyValueError (.error .valueError : Py α) :=
  fun _ h => (Except.error.inj h).symm

theorem OnlyValueError.bind {x : Py α} {f : α → Py β} (hx : OnlyValueError x)
    (hf : ∀ v, OnlyValueError (f v)) : OnlyValueError (x >>= f) := by
  intro err h
  cases x with
  | error err' =>
    obtain rfl := Except.error.inj h
    exact hx _ rfl
  | ok v => exact hf v err h

theorem OnlyValueError.expect (c : Prop) [Decidable c] : OnlyValueError (expect c) := by
  rw [Astreum.expect]
  split
  · exact OnlyValueError.ok ()
  · exact OnlyValueError.error

theorem OnlyValueError.unit {x : Py α} (hx : OnlyValueError x) :
    OnlyValueError (x.map fun _ => ()) := by
  cases x with
  | error err => exact fun err' h => Except.error.inj h ▸ hx err rfl
  | ok v => exact OnlyValueError.ok ()

/-- What reads all of its bytes reads them in front of any others. -/
theorem PrefixReader.append (hread : PrefixReader read) {data : Bytes} {v : α}
    (h : read data = .ok (v, [])) (more : Bytes) : read (data ++ more) = .ok (v, more) := by
  obtain ⟨field, rfl, hfield⟩ := hread _ _ _ h
  rw [List.append_nil]
  exact hfield more

/-- The next `n` bytes. -/
def readBytes (n : Nat) (data : Bytes) : Py (Bytes × Bytes) :=
  if data.length < n then .error .valueError else .ok (data.take n, data.drop n)

theorem readBytes_append {n : Nat} {field : Bytes} (h : field.length = n) (more : Bytes) :
    readBytes n (field ++ more) = .ok (field, more) := by
  rw [readBytes, if_neg (by simp [h]), List.take_left' h, List.drop_left' h]

theorem readBytes_eq_ok {n : Nat} {data field rest : Bytes}
    (h : readBytes n data = .ok (field, rest)) : field.length = n ∧ data = field ++ rest := by
  rw [readBytes] at h
  split at h
  · cases h
  · rename_i hn
    obtain ⟨rfl, rfl⟩ := Prod.mk.inj (Except.ok.inj h)
    exact ⟨by rw [List.length_take]; omega, (List.take_append_drop n data).symm⟩

theorem prefixReader_readBytes (n : Nat) : PrefixReader (readBytes n) := by
  intro data field rest h
  obtain ⟨hlength, rfl⟩ := readBytes_eq_ok h
  exact ⟨field, rfl, readBytes_append hlength⟩

theorem onlyValueError_readBytes (n : Nat) (data : Bytes) : OnlyValueError (readBytes n data) := by
  rw [readBytes]
  split
  · exact OnlyValueError.error
  · exact OnlyValueError.ok _

theorem prefixReader_readVarint : PrefixReader readVarint := by
  intro data value rest h
  obtain ⟨field, rfl, hfield⟩ := readVarintFrom_field h
  exact ⟨field, rfl, readVarintFrom_append hfield⟩

theorem onlyValueError_readVarint (data : Bytes) : OnlyValueError (readVarint data) :=
  fun _ h => readVarintFrom_error h

end Readers

end Astreum

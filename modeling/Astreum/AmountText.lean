import Astreum.Currency

namespace Astreum

open Decimals Python

namespace Currency

section Search

open Pattern

variable {a b : Pattern} {p : Char → Bool} {xs ys cs mid rest : List Char}

theorem head?_flatMap {α β : Type} {l : List α} {f : α → List β} {x : α} {y : β}
    (hl : l.head? = some x) (hf : (f x).head? = some y) : (l.flatMap f).head? = some y := by
  cases l with
  | nil => cases hl
  | cons z l =>
    obtain rfl := Option.some.inj hl
    rw [List.flatMap_cons, List.head?_append, hf]
    rfl

theorem head?_andThen {a b : Pattern} (mid : List Char)
    (ha : (a cs).head? = some (xs, mid)) (hb : (b mid).head? = some (ys, rest)) :
    (andThen a b cs).head? = some (xs ++ ys, rest) := by
  refine head?_flatMap ha ?_
  rw [List.head?_map, hb]
  rfl

theorem head?_orElse {x : List Char × List Char} (h : (a cs).head? = some x) :
    (orElse a b cs).head? = some x := by
  rw [orElse, List.head?_append, h]
  rfl

/-- The first thing a search for many characters finds is as many as there are. -/
theorem head?_many (xs rest : List Char) (hxs : ∀ ch ∈ xs, p ch = true)
    (hrest : ∀ ch cs, rest = ch :: cs → p ch = false) :
    (many p (xs ++ rest)).head? = some (xs, rest) := by
  induction xs with
  | nil =>
    cases rest with
    | nil => rfl
    | cons ch cs => 
      rw [List.nil_append, many, hrest ch cs rfl, if_neg Bool.false_ne_true]
      rfl
  | cons x xs ih =>
    rw [List.cons_append, many, hxs x List.mem_cons_self, if_pos rfl, List.head?_append,
      List.head?_map, ih fun ch hch => hxs ch (List.mem_cons_of_mem _ hch)]
    rfl

theorem head?_digits (hne : xs ≠ []) (hxs : ∀ ch ∈ xs, isDigit ch = true)
    (hrest : ∀ ch cs, rest = ch :: cs → isDigit ch = false) :
    (digits (xs ++ rest)).head? = some (xs, rest) := by
  cases xs with
  | nil => exact absurd rfl hne
  | cons x xs =>
    have hx : (char isDigit (x :: (xs ++ rest))).head? = some ([x], xs ++ rest) := by
      rw [char, hxs x List.mem_cons_self, if_pos rfl]
      rfl
    exact head?_andThen _ hx
      (head?_many xs rest (fun ch hch => hxs ch (List.mem_cons_of_mem _ hch)) hrest)

/-- What a pattern leaves is the end of the text. -/
def Leaves (a : Pattern) : Prop := ∀ cs, ∀ x ∈ a cs, x.2 <:+ cs

theorem leaves_char (p : Char → Bool) : Leaves (char p) := by
  intro cs x hx
  cases cs with
  | nil => cases hx
  | cons ch cs =>
    rw [char] at hx
    split at hx
    · obtain rfl := List.mem_singleton.mp hx
      exact List.suffix_cons ch cs
    · cases hx

theorem Leaves.andThen (ha : Leaves a) (hb : Leaves b) : Leaves (andThen a b) := by
  intro cs x hx
  obtain ⟨y, hy, hx⟩ := List.mem_flatMap.mp hx
  obtain ⟨z, hz, rfl⟩ := List.mem_map.mp hx
  exact (hb _ z hz).trans (ha cs y hy)

theorem Leaves.optional (ha : Leaves a) : Leaves (optional a) := by
  intro cs x hx
  rcases List.mem_append.mp hx with hx | hx
  · exact ha cs x hx
  · obtain rfl := List.mem_singleton.mp hx
    exact List.suffix_refl cs

theorem leaves_upToThree : Leaves upToThree :=
  (leaves_char _).andThen ((leaves_char _).andThen (leaves_char _).optional).optional

theorem groups_eq_nil (h : ∀ ch rest, cs = ' ' :: ch :: rest → isDigit ch = false) :
    groups cs = [] := by
  rw [groups.eq_def]
  split
  · rename_i x y z cs
    rw [h x _ rfl]
    rfl
  · rfl

/-- A group of digits needs a blank with a digit behind it. -/
theorem grouped_eq_nil (h : ∀ ch rest, ' ' :: ch :: rest <:+ cs → isDigit ch = false) :
    andThen upToThree groups cs = [] := by
  refine List.flatMap_eq_nil_iff.mpr fun x hx => ?_
  rw [groups_eq_nil fun ch rest hrest => h ch rest (hrest ▸ leaves_upToThree cs x hx)]
  rfl

end Search

section Characters

variable {ch : Char}

/-- What holds of the ten digits holds of a digit. -/
theorem of_isDigit (p : Char → Bool)
    (hall : ['0', '1', '2', '3', '4', '5', '6', '7', '8', '9'].all p = true)
    (h : ch.isDigit = true) : p ch = true :=
  List.all_eq_true.mp hall ch (mem_of_isDigit h)

theorem digitValue?_of_isDigit (h : ch.isDigit = true) : digitValue? ch = some (ch.toNat - 48) :=
  of_decide_eq_true (of_isDigit (fun ch => digitValue? ch = some (ch.toNat - 48)) (by decide) h)

theorem isDigit_of_isDigit (h : ch.isDigit = true) : isDigit ch = true := by
  rw [isDigit, digitValue?_of_isDigit h]
  rfl

theorem letter_range (h : isLetter ch = true) : 65 ≤ ch.toNat ∧ ch.toNat ≤ 122 := by
  have hcases : ('A' ≤ ch ∧ ch ≤ 'Z') ∨ ('a' ≤ ch ∧ ch ≤ 'z') := by simpa [isLetter] using h
  have hle : ∀ {x y : Char}, x ≤ y → x.toNat ≤ y.toNat := fun h => UInt32.le_iff_toNat_le.mp h
  rcases hcases with ⟨hlow, hhigh⟩ | ⟨hlow, hhigh⟩
  · exact ⟨hle hlow, (hle hhigh).trans (by decide)⟩
  · exact ⟨le_trans (by decide) (hle hlow), hle hhigh⟩

theorem letter_not_digit (h : isLetter ch = true) : isDigit ch = false := by
  obtain ⟨hlow, hhigh⟩ := letter_range h
  have hall : ∀ low ∈ digitZeros, low + 10 ≤ 65 ∨ 122 < low := by decide
  have hnone : digitZeros.find? (fun low => low ≤ ch.toNat && ch.toNat < low + 10) = none := by
    refine List.find?_eq_none.mpr fun low hmem hcon => ?_
    have hcon : low ≤ ch.toNat ∧ ch.toNat < low + 10 := by simpa using hcon
    have := hall low hmem
    omega
  rw [isDigit, digitValue?, hnone]
  rfl

theorem letter_not_blank (h : isLetter ch = true) : isBlank ch = false := by
  obtain ⟨hlow, hhigh⟩ := letter_range h
  simp [isBlank]
  omega

theorem letter_ne_space (h : isLetter ch = true) : ch ≠ ' ' := by
  rintro rfl
  exact absurd h (by decide)

end Characters

section Matching

open Pattern

variable {w f u : List Char}

/-- Characters of a number without a sign. -/
theorem not_mem_withPoint (hw : ∀ ch ∈ w, ch.isDigit = true) (hf : ∀ ch ∈ f, ch.isDigit = true) :
    ' ' ∉ withPoint (w, f) := by
  intro hmem
  rcases List.mem_append.mp hmem with hmem | hmem
  · exact absurd (hw _ hmem) (by decide)
  · split at hmem
    · cases hmem
    · rcases List.mem_cons.mp hmem with hmem | hmem
      · exact absurd hmem (by decide)
      · exact absurd (hf _ hmem) (by decide)

theorem suffix_space {xs rest : List Char} (hxs : ' ' ∉ xs) (hu : ' ' ∉ u)
    (h : ' ' :: rest <:+ xs ++ ' ' :: u) : rest = u := by
  induction xs with
  | nil =>
    rcases List.suffix_cons_iff.mp h with h | h
    · exact (List.cons.inj h).2
    · exact absurd (h.subset List.mem_cons_self) hu
  | cons x xs ih =>
    rcases List.suffix_cons_iff.mp h with h | h
    · exact absurd ((List.cons.inj h).1 ▸ List.mem_cons_self) hxs
    · exact ih (fun hmem => hxs (List.mem_cons_of_mem _ hmem)) h

theorem head?_unsigned (hne : w ≠ []) (hw : ∀ ch ∈ w, ch.isDigit = true)
    (hf : ∀ ch ∈ f, ch.isDigit = true) (hu : ∀ ch ∈ u, isLetter ch = true) :
    (orElse (andThen (orElse (andThen upToThree groups) digits)
      (Pattern.optional (andThen point (many isDigit)))) (andThen point digits)
      (withPoint (w, f) ++ ' ' :: u)).head? = some (withPoint (w, f), ' ' :: u) := by
  have hspace : ' ' ∉ u := fun hmem => letter_ne_space (hu _ hmem) rfl
  have hgrouped : andThen upToThree groups (withPoint (w, f) ++ ' ' :: u) = [] := by
    refine grouped_eq_nil fun ch rest hrest => ?_
    have heq := suffix_space (not_mem_withPoint hw hf) hspace hrest
    exact letter_not_digit (hu ch (heq ▸ List.mem_cons_self))
  have hdigits : ∀ rest, (∀ ch cs, rest = ch :: cs → isDigit ch = false) →
      (digits (w ++ rest)).head? = some (w, rest) := fun rest hrest =>
    head?_digits hne (fun ch hch => isDigit_of_isDigit (hw ch hch)) hrest
  refine head?_orElse ?_
  rw [withPoint] at hgrouped ⊢
  by_cases hfrac : f = []
  · rw [if_pos hfrac] at hgrouped ⊢
    refine head?_andThen (' ' :: u) ?_ ?_
    · rw [orElse, hgrouped, List.nil_append, List.append_nil]
      exact hdigits _ fun ch cs heq => (List.cons.inj heq).1 ▸ by decide
    · rw [Pattern.optional, orElse, List.head?_append]
      rfl
  · rw [if_neg hfrac] at hgrouped ⊢
    refine head?_andThen ('.' :: f ++ ' ' :: u) ?_ ?_
    · rw [orElse, hgrouped, List.nil_append, List.append_assoc]
      exact hdigits _ fun ch cs heq => (List.cons.inj heq).1 ▸ by decide
    · refine head?_orElse (head?_andThen _
        (show (point _).head? = some (['.'], f ++ ' ' :: u) from rfl) ?_)
      exact head?_many f _ (fun ch hch => isDigit_of_isDigit (hf ch hch))
        fun ch cs heq => (List.cons.inj heq).1 ▸ by decide

def signText (neg : Bool) : List Char := if neg then ['-'] else []

theorem head?_coefficient (neg : Bool) (hne : w ≠ []) (hw : ∀ ch ∈ w, ch.isDigit = true)
    (hf : ∀ ch ∈ f, ch.isDigit = true) (hu : ∀ ch ∈ u, isLetter ch = true) :
    (coefficientPattern (signText neg ++ withPoint (w, f) ++ ' ' :: u)).head? =
      some (signText neg ++ withPoint (w, f), ' ' :: u) := by
  refine head?_andThen _ ?_ (head?_unsigned hne hw hf hu)
  cases neg with
  | true => rfl
  | false =>
    cases w with
    | nil => exact absurd rfl hne
    | cons ch w =>
      have hsign : (ch == '+' || ch == '-') = false := Bool.not_eq_eq_eq_not.mp <|
        of_isDigit (fun ch => !(ch == '+' || ch == '-')) (by decide)
          (hw ch List.mem_cons_self)
      have hnone : char (fun ch => ch == '+' || ch == '-') (ch :: (w ++
          ((if f = [] then [] else '.' :: f) ++ ' ' :: u))) = [] := by
        rw [Pattern.char, hsign]
        rfl
      simp only [signText, withPoint, Pattern.optional, orElse, Bool.false_eq_true, if_false,
        List.nil_append, List.cons_append, List.append_assoc, hnone, List.head?_cons]

/-- A number is found in the text it is printed in. -/
theorem matchNumber_printed (neg : Bool) (hne : w ≠ []) (hw : ∀ ch ∈ w, ch.isDigit = true)
    (hf : ∀ ch ∈ f, ch.isDigit = true) (hu : ∀ ch ∈ u, isLetter ch = true) :
    matchNumber (signText neg ++ withPoint (w, f) ++ ' ' :: u) =
      some (signText neg ++ withPoint (w, f), u) := by
  have hstart : ∀ ch cs, signText neg ++ withPoint (w, f) ++ ' ' :: u = ch :: cs →
      isBlank ch = false := by
    intro ch cs heq
    cases neg with
    | true => exact (List.cons.inj heq).1 ▸ by decide
    | false =>
      cases w with
      | nil => exact absurd rfl hne
      | cons x w =>
        have hx := of_isDigit (fun ch => !isBlank ch) (by decide) (hw x List.mem_cons_self)
        exact (List.cons.inj heq).1 ▸ Bool.not_eq_eq_eq_not.mp hx
  have hunit : ∀ ch cs, u = ch :: cs → isBlank ch = false := fun ch cs heq =>
    letter_not_blank (hu ch (heq ▸ List.mem_cons_self))
  refine head?_flatMap (head?_many [] _ (fun _ h => by cases h) hstart) ?_
  refine head?_flatMap (head?_coefficient neg hne hw hf hu) ?_
  refine head?_flatMap (head?_many [' '] u (fun ch hch => List.mem_singleton.mp hch ▸ rfl) hunit) ?_
  have hletters := head?_many u [] hu fun ch cs heq => by cases heq
  rw [List.append_nil] at hletters
  exact head?_flatMap hletters rfl

end Matching

section Reading

variable {w f : List Char}

theorem natOfDigits_digits {cs : List Char} (h : ∀ ch ∈ cs, ch.isDigit = true) :
    natOfDigits (cs.filterMap digitValue?) = Nat.ofDigitChars 10 cs 0 := by
  have hmap : cs.filterMap digitValue? = cs.map (·.toNat - 48) := by
    rw [← List.filterMap_eq_map]
    exact List.filterMap_congr fun ch hch => digitValue?_of_isDigit (h ch hch)
  rw [hmap, natOfDigits, List.foldl_map, Nat.ofDigitChars_eq_foldl]
  rfl

theorem takeWhile_point (hw : ∀ ch ∈ w, ch.isDigit = true) :
    (withPoint (w, f)).takeWhile (· != '.') = w ∧
      ((withPoint (w, f)).dropWhile (· != '.')).drop 1 = f := by
  have hne : ∀ ch ∈ w, (ch != '.') = true := fun ch hch => by
    refine bne_iff_ne.mpr ?_
    rintro rfl
    exact absurd (hw _ hch) (by decide)
  rw [withPoint, List.takeWhile_append_of_pos hne, List.dropWhile_append_of_pos hne]
  by_cases hf : f = []
  · simp [hf]
  · simp [hf]

/-- A printed number is read with its sign, its digits and its places. -/
theorem decimalOfText_printed (neg : Bool) (hne : w ≠ []) (hw : ∀ ch ∈ w, ch.isDigit = true)
    (hf : ∀ ch ∈ f, ch.isDigit = true) :
    decimalOfText ((signText neg ++ withPoint (w, f)).filter (· != ' ')) =
      ⟨neg, Nat.ofDigitChars 10 (w ++ f) 0, -(f.length : Int)⟩ := by
  have hspace : ∀ ch ∈ signText neg ++ withPoint (w, f), (ch != ' ') = true := by
    intro ch hch
    refine bne_iff_ne.mpr ?_
    rintro rfl
    rcases List.mem_append.mp hch with hch | hch
    · cases neg with
      | true => exact absurd (List.mem_singleton.mp hch) (by decide)
      | false => cases hch
    · exact not_mem_withPoint hw hf hch
  have hall : ∀ ch ∈ w ++ f, ch.isDigit = true := fun ch hch =>
    (List.mem_append.mp hch).elim (hw ch) (hf ch)
  obtain ⟨htake, hdrop⟩ := takeWhile_point (f := f) hw
  rw [List.filter_eq_self.mpr hspace, ← natOfDigits_digits hall, decimalOfText]
  have hsplit : splitSign (signText neg ++ withPoint (w, f)) = (neg, withPoint (w, f)) := by
    cases neg with
    | true => rfl
    | false =>
      cases w with
      | nil => exact absurd rfl hne
      | cons ch w =>
        have hsign : ch ≠ '-' ∧ ch ≠ '+' := of_decide_eq_true <|
          of_isDigit (fun ch => ch ≠ '-' ∧ ch ≠ '+') (by decide) (hw ch List.mem_cons_self)
        exact (if_neg hsign.1).trans (if_neg hsign.2)
  rw [hsplit]
  simp only [htake, hdrop]

theorem isDigit_zeros (n : Nat) : ∀ ch ∈ List.replicate n '0', ch.isDigit = true := fun ch hch => by
  rw [List.eq_of_mem_replicate hch]
  decide

/-- The parts of a printed number hold its digits. -/
theorem places_spec (d : Dec) :
    (places d).1 ≠ [] ∧ (∀ ch ∈ (places d).1, ch.isDigit = true) ∧
      (∀ ch ∈ (places d).2, ch.isDigit = true) ∧
      Nat.ofDigitChars 10 ((places d).1 ++ (places d).2) 0 = d.coeff * 10 ^ d.exp.toNat ∧
      (places d).2.length = (-d.exp).toNat := by
  have hpos : 0 < (Nat.toDigits 10 d.coeff).length := Nat.length_toDigits_pos
  have hdigit : ∀ ch ∈ Nat.toDigits 10 d.coeff, ch.isDigit = true :=
    fun ch hch => Nat.isDigit_of_mem_toDigits (by decide) (by decide) hch
  have hvalue : Nat.ofDigitChars 10 (Nat.toDigits 10 d.coeff) 0 = d.coeff :=
    Nat.ofDigitChars_ten_toDigits
  have hzero : ∀ ch ∈ ['0'], ch.isDigit = true := fun ch hch => List.mem_singleton.mp hch ▸ rfl
  have hnought : Nat.ofDigitChars 10 ['0'] 0 = 0 := rfl
  rw [places]
  generalize Nat.toDigits 10 d.coeff = ds at hpos hdigit hvalue ⊢
  split
  · refine ⟨List.cons_ne_nil _ _, hzero, fun ch hch => ?_, ?_, ?_⟩
    · exact (List.mem_append.mp hch).elim (isDigit_zeros _ ch) (hdigit ch)
    · rw [show d.exp.toNat = 0 by omega, Nat.ofDigitChars_append, Nat.ofDigitChars_append,
        Nat.ofDigitChars_replicate_zero, hnought, Nat.mul_zero]
      simpa using hvalue
    · rw [List.length_append, List.length_replicate]
      omega
  split
  · refine ⟨?_, fun ch hch => ?_, nofun, ?_, ?_⟩
    · exact List.append_ne_nil_of_left_ne_nil (List.ne_nil_of_length_pos hpos) _
    · exact (List.mem_append.mp hch).elim (hdigit ch) (isDigit_zeros _ ch)
    · rw [List.append_nil, Nat.ofDigitChars_append, hvalue, Nat.ofDigitChars_replicate_zero,
        Nat.mul_comm]
      congr 2
      omega
    · rw [List.length_nil]
      omega
  · have hexp : d.exp.toNat = 0 := by omega
    rw [hexp, pow_zero, mul_one]
    split
    · rename_i hdot
      refine ⟨List.cons_ne_nil _ _, hzero, fun ch hch => hdigit ch (List.mem_of_mem_drop hch),
        ?_, ?_⟩
      · rw [hdot, Int.toNat_zero, List.drop_zero, Nat.ofDigitChars_append, hnought]
        simpa using hvalue
      · rw [List.length_drop]
        omega
    · rename_i hdot
      refine ⟨?_, fun ch hch => hdigit ch (List.mem_of_mem_take hch),
        fun ch hch => hdigit ch (List.mem_of_mem_drop hch), ?_, ?_⟩
      · refine List.ne_nil_of_length_pos ?_
        rw [List.length_take]
        omega
      · rw [List.take_append_drop, hvalue]
      · rw [List.length_drop]
        omega

theorem zpow_toNat_sub (e : Int) :
    ((10 : Rat) ^ e.toNat) * 10 ^ (-((-e).toNat : Int)) = 10 ^ e := by
  rw [← zpow_natCast, ← zpow_add₀ (by norm_num)]
  congr 1
  omega

/-- The text of a number with a unit. -/
def printed (neg : Bool) (d : Dec) (u : List Char) : List Char :=
  signText neg ++ withPoint (places d) ++ ' ' :: u

/-- A number printed with a unit is read as its value and the factor of the unit. -/
theorem readAmount_printed (neg : Bool) (d : Dec) {u : List Char} {factor : Nat}
    (hu : ∀ ch ∈ u, isLetter ch = true) (hfactor : unitFactor u = some factor) :
    ∃ r, readAmount (String.ofList (printed neg d u)) = some (r, factor) ∧
      r.val = Dec.val ⟨neg, d.coeff, d.exp⟩ := by
  obtain ⟨hne, hw, hf, hvalue, hlength⟩ := places_spec d
  refine ⟨⟨neg, Nat.ofDigitChars 10 ((places d).1 ++ (places d).2) 0,
    -((places d).2.length : Int)⟩, ?_, ?_⟩
  · rw [readAmount, String.toList_ofList, printed, ← Prod.mk.eta (p := places d),
      matchNumber_printed neg hne hw hf hu]
    simp only [Option.bind_eq_bind, Option.bind_some, hfactor,
      decimalOfText_printed neg hne hw hf]
    rfl
  · rw [hvalue, hlength, Dec.val, Dec.val]
    simp only [Dec.sign]
    push_cast
    rw [mul_assoc (d.coeff : Rat), zpow_toNat_sub]

end Reading

section Results

variable {text : String} {coefficient : Dec} {factor : Nat} {n : Int}

theorem range_default : defaultContext.etiny ≤ defaultContext.etop := by decide

theorem range_parse : parseContext.etiny ≤ parseContext.etop := by decide

/-- The amount a text names, before it is rounded. -/
def product (coefficient : Dec) (factor : Nat) : Dec :=
  ⟨xor coefficient.neg false, coefficient.coeff * factor, coefficient.exp + 0⟩

theorem val_product (coefficient : Dec) (factor : Nat) :
    (product coefficient factor).val = coefficient.val * factor := by
  refine (Dec.val_mul coefficient ⟨false, factor, 0⟩).trans ?_
  simp [Dec.val, Dec.sign]

theorem parse_eq (h : readAmount text = some (coefficient, factor)) :
    parseAstreAmount text = match (product coefficient factor).fix parseContext with
      | none => .error .overflow
      | some value =>
        if value.same value.toIntegralValue then .ok value.toInt else .error .valueError := by
  rw [parseAstreAmount, h]
  rfl

theorem parse_eq_ok_iff (h : readAmount text = some (coefficient, factor)) :
    parseAstreAmount text = .ok n ↔
      ∃ value, (product coefficient factor).fix parseContext = some value ∧ value.val = n := by
  rw [parse_eq h]
  cases hfix : (product coefficient factor).fix parseContext with
  | none => simp
  | some value =>
    dsimp only
    constructor
    · intro hok
      split at hok
      · rename_i hsame
        obtain rfl := Except.ok.inj hok
        exact ⟨value, rfl, (Dec.val_toInt ((Dec.same_toIntegralValue value).mp hsame)).symm⟩
      · cases hok
    · rintro ⟨value', heq, hval⟩
      obtain rfl := Option.some.inj heq
      rw [if_pos ((Dec.same_toIntegralValue value).mpr ⟨n, hval⟩)]
      have hcast := (Dec.val_toInt ⟨n, hval⟩).trans hval
      exact congrArg Except.ok (by exact_mod_cast hcast)

/-- A text is read as it says: as the whole number it names, or not at all. -/
def ReadExactly (text : String) : Prop :=
  parseAstreAmount text = .error .valueError ∨
    ∃ coefficient factor n, readAmount text = some (coefficient, factor) ∧
      parseAstreAmount text = .ok n ∧ coefficient.val * factor = n

/-- A text whose amount stays in range, and is either a multiple of the unit of its sixtieth digit
or further than half of it from every whole number. -/
def Plain (text : String) : Prop :=
  ∀ coefficient factor, readAmount text = some (coefficient, factor) →
    (product coefficient factor).Fits parseContext ∧
      ((product coefficient factor).Exact parseContext ∨
        ¬(product coefficient factor).NearWhole parseContext)

theorem readExactly_iff (text : String) : ReadExactly text ↔ Plain text := by
  cases hread : readAmount text with
  | none =>
    refine iff_of_true (.inl ?_) fun _ _ h => by rw [hread] at h; cases h
    rw [parseAstreAmount, hread]
  | some amount =>
    obtain ⟨coefficient, factor⟩ := amount
    have hplain : Plain text ↔ (product coefficient factor).Fits parseContext ∧
        ((product coefficient factor).Exact parseContext ∨
          ¬(product coefficient factor).NearWhole parseContext) := by
      refine ⟨fun h => h _ _ hread, fun h c f heq => ?_⟩
      obtain ⟨rfl, rfl⟩ := Prod.mk.inj (Option.some.inj (hread.symm.trans heq))
      exact h
    have hexactly : ReadExactly text ↔ parseAstreAmount text = .error .valueError ∨
        ∃ n : Int, parseAstreAmount text = .ok n ∧ (product coefficient factor).val = n := by
      refine or_congr_right ⟨?_, fun ⟨n, hok, hval⟩ => ?_⟩
      · rintro ⟨c, f, n, heq, hok, hval⟩
        obtain ⟨rfl, rfl⟩ := Prod.mk.inj (Option.some.inj (hread.symm.trans heq))
        exact ⟨n, hok, (val_product _ _).trans hval⟩
      · exact ⟨coefficient, factor, n, hread, hok, (val_product _ _).symm.trans hval⟩
    have hsome := Dec.fix_isSome_iff (d := product coefficient factor)
      (show 0 < parseContext.prec by decide) range_parse
    rw [hplain, hexactly, ← hsome, parse_eq hread]
    cases hfix : (product coefficient factor).fix parseContext with
    | none => simp
    | some value =>
      have hval := Dec.val_fix_iff (show 0 < parseContext.prec by decide) hfix
      dsimp only
      by_cases hexact : (product coefficient factor).Exact parseContext
      · refine iff_of_true ?_ ⟨rfl, .inl hexact⟩
        by_cases hwhole : Whole value.val
        · rw [if_pos ((Dec.same_toIntegralValue value).mpr hwhole)]
          exact .inr ⟨_, rfl, (hval.mpr hexact).symm.trans (Dec.val_toInt hwhole).symm⟩
        · rw [if_neg (mt (Dec.same_toIntegralValue value).mp hwhole)]
          exact .inl rfl
      · have hnear := Dec.whole_fix_iff (show 0 < parseContext.prec by decide) hfix hexact
        simp only [Option.isSome_some, true_and, or_iff_right hexact, ← hnear]
        constructor
        · rintro herror hwhole
          rw [if_pos ((Dec.same_toIntegralValue value).mpr hwhole)] at herror
          rcases herror with herror | ⟨n, hok, heq⟩
          · cases herror
          · obtain rfl := Except.ok.inj hok
            exact hexact (hval.mp ((Dec.val_toInt hwhole).symm.trans heq.symm))
        · intro hwhole
          rw [if_neg (mt (Dec.same_toIntegralValue value).mp hwhole)]
          exact .inl rfl

/-- An amount that is read back from its text. -/
def RoundTrips (n : Int) (style : Style) : Prop :=
  ∃ text, formatAstreAmount n style = .ok text ∧ parseAstreAmount text = .ok n

/-- An amount of at most twenty-eight digits, apart from zeros at its end, and of at most a
million digits with them. -/
def Printable (n : Int) : Prop :=
  (∃ m < 10 ^ 28, ∃ j, n.natAbs = m * 10 ^ j) ∧ n.natAbs < parseContext.limit

theorem natAbs_cast (n : Int) : ((n.natAbs : Nat) : Rat) = |(n : Rat)| := by
  rw [Nat.cast_natAbs, Int.cast_abs]

theorem zpow_emax : (10 : Rat) ^ (parseContext.emax + 1) = (parseContext.limit : Nat) :=
  Dec.zpow_emax (by decide)

/-- A whole amount of few digits is read as it is. -/
theorem parse_of_val (hread : readAmount text = some (coefficient, factor))
    (hval : coefficient.val * factor = n) {m j : Nat} (hm : m < 10 ^ 28)
    (hn : n.natAbs = m * 10 ^ j) (hlt : n.natAbs < parseContext.limit) :
    parseAstreAmount text = .ok n := by
  have habs : |(product coefficient factor).val| = (n.natAbs : Nat) := by
    rw [val_product, hval, natAbs_cast]
  have hfew : |(product coefficient factor).val| = m * (10 : Rat) ^ ((j : Nat) : Int) := by
    rw [habs, hn, zpow_natCast]
    push_cast
    rfl
  have hm : m < 10 ^ parseContext.prec := hm.trans (by decide)
  have hrange : |(product coefficient factor).val| < 10 ^ (parseContext.emax + 1) := by
    rw [habs, zpow_emax]
    exact_mod_cast hlt
  have hetiny : parseContext.etiny ≤ (j : Int) := le_trans (by decide) (Int.natCast_nonneg j)
  obtain ⟨value, hfix, hsame⟩ := Dec.fix_of_val (by decide) range_parse hm hetiny hfew hrange
  exact (parse_eq_ok_iff hread).mpr ⟨value, hfix, hsame.trans ((val_product _ _).trans hval)⟩

theorem prefix_spec : ∀ p ∈ prefixes, (∃ k < 31, p.factor = 10 ^ k) ∧
    ∀ style ∈ [Style.short, .full], (prefixUnit p style).all isLetter = true ∧
      unitFactor (prefixUnit p style) = some p.factor := by
  decide

theorem bareUnit_spec (style : Style) :
    (bareUnit style).all isLetter = true ∧ unitFactor (bareUnit style) = some 1 := by
  cases style <;> decide

theorem mem_styles (style : Style) : style ∈ [Style.short, .full] := by
  cases style <;> decide

theorem toDigits_eq_withPoint (n : Nat) :
    Nat.toDigits 10 n = withPoint (places ⟨false, n, 0⟩) := by
  have hpos : 0 < (Nat.toDigits 10 n).length := Nat.length_toDigits_pos
  rw [places]
  dsimp only
  rw [if_neg (by omega), if_neg (by omega), if_neg (by omega)]
  simp [withPoint]

/-- The text of an amount is the text of a number with the sign of the amount. -/
theorem format_eq {d : Dec} {u : List Char} {style : Style}
    (h : formatNat n.natAbs style = .ok (withPoint (places d) ++ ' ' :: u)) :
    formatAstreAmount n style = .ok (String.ofList (printed (decide (n < 0)) d u)) := by
  rw [formatAstreAmount, h]
  refine congrArg (fun cs => Except.ok (String.ofList cs)) ?_
  by_cases hneg : n < 0
  · simp [hneg, printed, signText]
  · simp [hneg, printed, signText]

theorem val_signed (d : Dec) (n : Int) (h : d.coeff * (10 : Rat) ^ d.exp = (n.natAbs : Nat)) :
    Dec.val ⟨decide (n < 0), d.coeff, d.exp⟩ = n := by
  rw [Dec.val, h, natAbs_cast]
  by_cases hneg : n < 0
  · have hle : (n : Rat) ≤ 0 := by exact_mod_cast hneg.le
    simp [Dec.sign, hneg, abs_of_nonpos hle]
  · have hle : (0 : Rat) ≤ n := by exact_mod_cast not_lt.mp hneg
    simp [Dec.sign, hneg, abs_of_nonneg hle]

theorem roundTrips_of_lt (style : Style) (h : n.natAbs < 1000) :
    RoundTrips n style ∧ Printable n := by
  have hdigits : n.natAbs < 10 ^ 28 := h.trans (by decide)
  have hlt : n.natAbs < parseContext.limit :=
    hdigits.trans_le (Dec.pow_le_limit (by decide))
  have hone : n.natAbs = n.natAbs * 10 ^ 0 := by rw [pow_zero, mul_one]
  obtain ⟨hletter, hunit⟩ := bareUnit_spec style
  have hformat : formatNat n.natAbs style =
      .ok (withPoint (places ⟨false, n.natAbs, 0⟩) ++ ' ' :: bareUnit style) := by
    rw [formatNat, if_pos h, toDigits_eq_withPoint]
  obtain ⟨r, hread, hval⟩ :=
    readAmount_printed (decide (n < 0)) ⟨false, n.natAbs, 0⟩ (List.all_eq_true.mp hletter) hunit
  refine ⟨⟨_, format_eq hformat, parse_of_val hread ?_ hdigits hone hlt⟩,
    ⟨_, hdigits, 0, hone⟩, hlt⟩
  rw [hval, Nat.cast_one, mul_one]
  exact val_signed ⟨false, n.natAbs, 0⟩ n (by rw [zpow_zero, mul_one])

theorem exists_prefix (h : ¬n.natAbs < 1000) :
    ∃ p, prefixes.reverse.find? (·.factor ≤ n.natAbs) = some p ∧ p ∈ prefixes := by
  have hsome : (prefixes.reverse.find? (·.factor ≤ n.natAbs)).isSome := by
    rw [List.find?_isSome]
    exact ⟨⟨'k', 10 ^ 3, ['k', 'i', 'l', 'o'], 'k'⟩, by decide,
      decide_eq_true (not_lt.mp h)⟩
  obtain ⟨p, hp⟩ := Option.isSome_iff_exists.mp hsome
  exact ⟨p, hp, List.mem_reverse.mp (List.mem_of_find?_eq_some hp)⟩

theorem formatF_of_neg {d : Dec} (h : d.neg = false) : formatF d = withPoint (places d) := by
  rw [formatF, h]
  rfl

theorem printable_of_roundTrips {style : Style} (hn : ¬n.natAbs < 1000)
    (h : RoundTrips n style) : Printable n := by
  obtain ⟨p, hp, hmem⟩ := exists_prefix hn
  obtain ⟨⟨k, hk, hfactor⟩, hunits⟩ := prefix_spec p hmem
  obtain ⟨hletter, hunit⟩ := hunits style (mem_styles style)
  obtain ⟨text, hformat, hparse⟩ := h
  have hnat : ∃ w : Dec, w.neg = false ∧ w.coeff < 10 ^ 28 ∧
      (w.coeff = 0 ∨ defaultContext.etiny ≤ w.exp) ∧
      formatNat n.natAbs style = .ok (withPoint (places w) ++ ' ' :: prefixUnit p style) := by
    rw [formatAstreAmount] at hformat
    cases hnat : formatNat n.natAbs style with
    | error e =>
      rw [hnat] at hformat
      cases hformat
    | ok cs =>
      rw [formatNat, if_neg hn, hp] at hnat
      dsimp only at hnat
      cases hdiv : Dec.div defaultContext ⟨false, n.natAbs, 0⟩ ⟨false, p.factor, 0⟩ with
      | none =>
        rw [hdiv] at hnat
        cases hnat
      | some scaled =>
        rw [hdiv] at hnat
        dsimp only at hnat
        cases hnorm : scaled.normalize defaultContext with
        | none =>
          rw [hnorm] at hnat
          cases hnat
        | some w =>
          rw [hnorm] at hnat
          obtain ⟨hneg, hcoeff, hexp⟩ := Dec.normalize_spec (by decide) hnorm
          have hneg : w.neg = false := hneg.trans (Dec.neg_div hdiv)
          dsimp only at hnat
          rw [formatF_of_neg hneg] at hnat
          exact ⟨w, hneg, hcoeff, hexp, hnat.symm⟩
  obtain ⟨w, hneg, hcoeff, hexp, hnat⟩ := hnat
  obtain rfl := Except.ok.inj ((format_eq hnat).symm.trans hformat)
  obtain ⟨r, hread, hval⟩ :=
    readAmount_printed (decide (n < 0)) w (List.all_eq_true.mp hletter) hunit
  obtain ⟨value, hfix, hvalue⟩ := (parse_eq_ok_iff hread).mp hparse
  have habs : |(product r p.factor).val| = w.coeff * (10 : Rat) ^ (w.exp + k) := by
    have hfactor' : (p.factor : Rat) = 10 ^ (k : Int) := by
      rw [hfactor, zpow_natCast]
      push_cast
      rfl
    rw [val_product, abs_mul, hval, Dec.abs_val, hfactor', zpow_add₀ (by norm_num), ← mul_assoc,
      abs_of_pos (by positivity : (0 : Rat) < 10 ^ (k : Int))]
  have hexact : (product r p.factor).Exact parseContext := by
    rcases hexp with hzero | hexp
    · refine Dec.exact_of_val (m := 0) (e := 0) (by decide) (by decide) ?_
      rw [habs, hzero]
      simp
    · refine Dec.exact_of_val (hcoeff.trans (by decide)) ?_ habs
      have hlow : parseContext.etiny ≤ defaultContext.etiny := by decide
      omega
  have hprod : (product r p.factor).val = n :=
    ((Dec.val_fix_iff (by decide) hfix).mpr hexact).symm.trans hvalue
  rw [hprod, ← natAbs_cast] at habs
  constructor
  · rcases le_or_gt 0 (w.exp + k) with hle | hlt
    · refine ⟨w.coeff, hcoeff, (w.exp + k).toNat, ?_⟩
      rw [Dec.zpow_toNat hle] at habs
      exact_mod_cast habs
    · refine ⟨n.natAbs, lt_of_le_of_lt ?_ hcoeff, 0, by rw [pow_zero, mul_one]⟩
      have hten : (10 : Rat) ^ (w.exp + k) ≤ 1 := zpow_le_one_of_nonpos₀ (by norm_num) hlt.le
      have hle : ((n.natAbs : Nat) : Rat) ≤ w.coeff := by
        rw [habs]
        exact mul_le_of_le_one_right (Nat.cast_nonneg _) hten
      exact_mod_cast hle
  · have hfits := (Dec.fix_isSome_iff (by decide) range_parse).mp
      (Option.isSome_iff_exists.mpr ⟨value, hfix⟩)
    rcases hfits with hzero | hfits
    · have hval := Dec.val_of_zero hzero
      rw [hprod] at hval
      have hnought : n = 0 := by exact_mod_cast hval
      rw [hnought] at hn
      exact absurd (by decide) hn
    · rw [hprod, ← natAbs_cast, zpow_emax] at hfits
      have hunit : (0 : Rat) < (product r p.factor).unit parseContext := by
        rw [Dec.unit]
        positivity
      have hlt : ((n.natAbs : Nat) : Rat) < (parseContext.limit : Nat) := by linarith
      exact_mod_cast hlt

theorem roundTrips_of_printable {style : Style} (hn : ¬n.natAbs < 1000) (h : Printable n) :
    RoundTrips n style := by
  obtain ⟨⟨m, hm, j, hmj⟩, hlt⟩ := h
  obtain ⟨p, hp, hmem⟩ := exists_prefix hn
  obtain ⟨⟨k, hk, hfactor⟩, hunits⟩ := prefix_spec p hmem
  obtain ⟨hletter, hunit⟩ := hunits style (mem_styles style)
  have hfactor' : (p.factor : Rat) = 10 ^ (k : Int) := by
    rw [hfactor, zpow_natCast]
    push_cast
    rfl
  have hten : (0 : Rat) < 10 ^ (k : Int) := by positivity
  have hm0 : m ≠ 0 := by
    rintro rfl
    rw [hmj, Nat.zero_mul] at hn
    exact hn (by decide)
  have hdigits : Dec.digits ⟨false, n.natAbs, 0⟩ ≤ 28 + j := by
    refine Nat.log_lt_of_lt_pow (fun hzero => hn (lt_of_eq_of_lt hzero (by decide))) ?_
    dsimp only
    rw [hmj, pow_add]
    exact Nat.mul_lt_mul_of_pos_right hm (Nat.pow_pos (by decide))
  have hplaces : Dec.digits ⟨false, p.factor, 0⟩ = k + 1 := by
    rw [Dec.digits, hfactor, Nat.log_pow (by decide)]
  -- the zeros at the end of the amount make up for the digits the quotient drops
  obtain ⟨d, hdiv, hval⟩ := Dec.div_exact (c := defaultContext) (a := ⟨false, n.natAbs, 0⟩)
    (b := ⟨false, p.factor, 0⟩) (by
      rw [hfactor]
      exact (Nat.pow_pos (by decide)).ne') (by
      rw [hplaces]
      generalize Dec.digits ⟨false, n.natAbs, 0⟩ = digits at hdigits ⊢
      dsimp only
      rw [hfactor, hmj, ← pow_add, mul_assoc, ← pow_add]
      refine Dvd.dvd.mul_left (pow_dvd_pow 10 ?_) m
      have hprec : defaultContext.prec = 28 := rfl
      omega)
  have hquot : d.val = m * (10 : Rat) ^ ((j : Int) - k) := by
    rw [hval, Dec.val, Dec.val]
    simp only [Dec.sign, hfactor', hmj]
    rw [zpow_sub₀ (by norm_num), zpow_natCast, zpow_natCast]
    push_cast
    field_simp
  have habs : |d.val| = m * (10 : Rat) ^ ((j : Int) - k) := by
    rw [hquot, abs_of_nonneg (mul_nonneg (Nat.cast_nonneg m) (zpow_nonneg (by norm_num) _))]
  have hetiny : defaultContext.etiny ≤ (j : Int) - k := by
    have hlow : defaultContext.etiny ≤ -31 := by decide
    omega
  have hrange : |d.val| < 10 ^ (defaultContext.emax + 1) := by
    have hmul : |d.val| * 10 ^ (k : Int) = (n.natAbs : Nat) := by
      rw [habs, mul_assoc, ← zpow_add₀ (by norm_num), sub_add_cancel, hmj, zpow_natCast]
      push_cast
      rfl
    have hone : (1 : Rat) ≤ 10 ^ (k : Int) :=
      one_le_zpow₀ (by norm_num) (Int.natCast_nonneg k)
    have hnlt : ((n.natAbs : Nat) : Rat) < (parseContext.limit : Nat) := by exact_mod_cast hlt
    rw [show defaultContext.emax = parseContext.emax from rfl, zpow_emax]
    calc |d.val| ≤ |d.val| * 10 ^ (k : Int) := le_mul_of_one_le_right (abs_nonneg _) hone
      _ = (n.natAbs : Nat) := hmul
      _ < (parseContext.limit : Nat) := hnlt
  obtain ⟨scaled, hscaled, hsval⟩ :=
    Dec.fix_of_val (show 0 < 28 by decide) range_default hm hetiny habs hrange
  rw [hscaled] at hdiv
  rw [← hsval] at habs hrange
  obtain ⟨fixed, hfixed, hfval⟩ :=
    Dec.fix_of_val (show 0 < 28 by decide) range_default hm hetiny habs hrange
  obtain ⟨w, hnorm, hwval⟩ := Dec.normalize_of_fix hfixed
  have hneg : w.neg = false :=
    (Dec.normalize_spec (by decide) hnorm).1.trans (Dec.neg_div hdiv)
  have hformat : formatNat n.natAbs style =
      .ok (withPoint (places w) ++ ' ' :: prefixUnit p style) := by
    rw [formatNat, if_neg hn, hp]
    dsimp only
    rw [hdiv]
    dsimp only
    rw [hnorm]
    dsimp only
    rw [formatF_of_neg hneg]
  obtain ⟨r, hread, hrval⟩ :=
    readAmount_printed (decide (n < 0)) w (List.all_eq_true.mp hletter) hunit
  refine ⟨_, format_eq hformat, parse_of_val hread ?_ hm hmj hlt⟩
  have hw : w.coeff * (10 : Rat) ^ w.exp = m * (10 : Rat) ^ ((j : Int) - k) := by
    have heq := hwval.trans (hfval.trans (hsval.trans hquot))
    rwa [Dec.val, Dec.sign, hneg, if_neg Bool.false_ne_true, Int.cast_one, one_mul] at heq
  have hscale : (Dec.mk (decide (n < 0)) w.coeff (w.exp + k)).val = n := by
    refine val_signed ⟨false, w.coeff, w.exp + k⟩ n ?_
    rw [zpow_add₀ (by norm_num), ← mul_assoc, hw, mul_assoc, ← zpow_add₀ (by norm_num),
      sub_add_cancel, hmj, zpow_natCast]
    push_cast
    rfl
  rw [hrval, hfactor', ← hscale, Dec.val, Dec.val, zpow_add₀ (by norm_num)]
  simp only [Dec.sign]
  ring

/-- An amount is read back from its text just when the text can show all of it, and a text is read
exactly just when its amount is plain. -/
theorem amounts_are_exact_iff (n : Int) (style : Style) (text : String) :
    (RoundTrips n style ↔ Printable n) ∧ (ReadExactly text ↔ Plain text) := by
  refine ⟨?_, readExactly_iff text⟩
  by_cases hn : n.natAbs < 1000
  · obtain ⟨htrip, hprint⟩ := roundTrips_of_lt style hn
    exact iff_of_true htrip hprint
  · exact ⟨printable_of_roundTrips hn, roundTrips_of_printable hn⟩

/-- The least amount of thirty-one digits but one is printed without its last digit, and a
coefficient of sixty-one digits is read without its last digit. -/
theorem amounts_are_not_exact :
    ¬RoundTrips (10 ^ 30 + 1) .short ∧
      ¬ReadExactly (String.ofList ('1' :: '.' :: (List.replicate 59 '0' ++ ['1']))) := by
  constructor
  · intro h
    obtain ⟨⟨m, hm, j, hmj⟩, -⟩ := printable_of_roundTrips (by decide) h
    have habs : (10 ^ 30 + 1 : Int).natAbs = 10 ^ 30 + 1 := by decide
    rw [habs] at hmj
    cases j with
    | zero =>
      rw [pow_zero, mul_one] at hmj
      omega
    | succ j =>
      rw [Nat.pow_succ 10 j, ← mul_assoc] at hmj
      omega
  · have hread : readAmount (String.ofList ('1' :: '.' :: (List.replicate 59 '0' ++ ['1']))) =
        some (⟨false, 10 ^ 60 + 1, -60⟩, 1) := by
      rw [readAmount, String.toList_ofList]
      decide +kernel
    have hfix : (product ⟨false, 10 ^ 60 + 1, -60⟩ 1).fix parseContext =
        some ⟨false, 10 ^ 59, -59⟩ := by decide +kernel
    have hparse := parse_eq hread
    rw [hfix] at hparse
    dsimp only at hparse
    rw [if_pos (by decide +kernel)] at hparse
    rintro (herror | ⟨coefficient, factor, n, heq, hok, hval⟩)
    · rw [hparse] at herror
      cases herror
    · obtain ⟨rfl, rfl⟩ := Prod.mk.inj (Option.some.inj (hread.symm.trans heq))
      obtain rfl := Except.ok.inj (hparse.symm.trans hok)
      have hone : Dec.toInt ⟨false, 10 ^ 59, -59⟩ = 1 := by decide +kernel
      rw [hone, Dec.val] at hval
      norm_num [Dec.sign] at hval

end Results

end Currency

end Astreum

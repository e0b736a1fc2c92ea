import Mathlib.Algebra.Group.Int.Defs
import Mathlib.Order.Defs.Unbundled
import Mathlib.Tactic.Abel

namespace Astreum

variable {ε σ τ α β : Type}

/-- A sequence of results that is one has one in each part. -/
theorem except_bind_eq_ok {x : Except ε α} {f : α → Except ε β} {b : β} :
    (x >>= f) = .ok b ↔ ∃ a, x = .ok a ∧ f a = .ok b := by
  rcases x with e | a
  · constructor
    · intro h
      cases h
    · rintro ⟨a, h, -⟩
      cases h
  · constructor
    · exact fun h => ⟨a, rfl, h⟩
    · rintro ⟨b, h, hf⟩
      cases h
      exact hf

/-- A computation on a mutable state that may raise. Whatever was written before the raise stays
written, as in a language with in-place updates. -/
def Eff (ε σ α : Type) : Type := σ → Except ε α × σ

namespace Eff

def ret (a : α) : Eff ε σ α := fun s => (.ok a, s)

def andThen (x : Eff ε σ α) (f : α → Eff ε σ β) : Eff ε σ β := fun s =>
  match x s with
  | (.ok a, s') => f a s'
  | (.error e, s') => (.error e, s')

instance : Monad (Eff ε σ) where
  pure := ret
  bind := andThen

def raise (e : ε) : Eff ε σ α := fun s => (.error e, s)

def read : Eff ε σ σ := fun s => (.ok s, s)

def write (s : σ) : Eff ε σ Unit := fun _ => (.ok (), s)

def update (f : σ → σ) : Eff ε σ Unit := fun s => (.ok (), f s)

def asks (f : σ → α) : Eff ε σ α := fun s => (.ok (f s), s)

def ofExcept (x : Except ε α) : Eff ε σ α := fun s => (x, s)

/-- Run `x`; a raise hands the error to `h`, which goes on from the state at the raise. -/
def handle (x : Eff ε σ α) (h : ε → Eff ε σ α) : Eff ε σ α := fun s =>
  match x s with
  | (.ok a, s') => (.ok a, s')
  | (.error e, s') => h e s'

/-- Run `x` under a condition. -/
def when (c : Prop) [Decidable c] (x : Eff ε σ Unit) : Eff ε σ Unit := if c then x else ret ()

/-- Run a computation on one component of a larger state. -/
def zoom (get : τ → σ) (put : σ → τ → τ) (x : Eff ε σ α) : Eff ε τ α := fun t =>
  ((x (get t)).1, put (x (get t)).2 t)

@[simp] theorem pure_apply (a : α) (s : σ) : (pure a : Eff ε σ α) s = (.ok a, s) := rfl

@[simp] theorem raise_apply (e : ε) (s : σ) : (raise e : Eff ε σ α) s = (.error e, s) := rfl

@[simp] theorem read_apply (s : σ) : (read : Eff ε σ σ) s = (.ok s, s) := rfl

@[simp] theorem write_apply (s t : σ) : (write s : Eff ε σ Unit) t = (.ok (), s) := rfl

@[simp] theorem update_apply (f : σ → σ) (s : σ) : (update f : Eff ε σ Unit) s = (.ok (), f s) := rfl

@[simp] theorem asks_apply (f : σ → α) (s : σ) : (asks f : Eff ε σ α) s = (.ok (f s), s) := rfl

@[simp] theorem ofExcept_apply (x : Except ε α) (s : σ) :
    (ofExcept x : Eff ε σ α) s = (x, s) := rfl

theorem eq_of_fst {x : Eff ε σ α} {s : σ} {r : Except ε α} (h : (x s).1 = r) :
    x s = (r, (x s).2) := by
  rw [← h]

theorem bind_apply (x : Eff ε σ α) (f : α → Eff ε σ β) (s : σ) :
    (x >>= f) s = match x s with
      | (.ok a, s') => f a s'
      | (.error e, s') => (.error e, s') := rfl

theorem bind_of_ok {x : Eff ε σ α} {s s' : σ} {a : α} (h : x s = (.ok a, s'))
    (f : α → Eff ε σ β) : (x >>= f) s = f a s' := by
  rw [bind_apply, h]

theorem bind_of_error {x : Eff ε σ α} {s s' : σ} {e : ε} (h : x s = (.error e, s'))
    (f : α → Eff ε σ β) : (x >>= f) s = (.error e, s') := by
  rw [bind_apply, h]

@[simp] theorem pure_bind (a : α) (f : α → Eff ε σ β) : (pure a >>= f : Eff ε σ β) = f a := rfl

@[simp] theorem raise_bind (e : ε) (f : α → Eff ε σ β) :
    (raise e >>= f : Eff ε σ β) = raise e := rfl

@[simp] theorem ofExcept_ok_bind (a : α) (f : α → Eff ε σ β) :
    (ofExcept (.ok a) >>= f : Eff ε σ β) = f a := rfl

@[simp] theorem update_bind (f : σ → σ) (k : Unit → Eff ε σ β) (s : σ) :
    (update f >>= k) s = k () (f s) := rfl

@[simp] theorem read_bind (k : σ → Eff ε σ β) (s : σ) : (read >>= k) s = k s s := rfl

theorem bind_assoc (x : Eff ε σ α) (f : α → Eff ε σ β) {γ : Type} (g : β → Eff ε σ γ) :
    (x >>= f) >>= g = x >>= fun a => f a >>= g := by
  funext s
  simp only [bind_apply]
  rcases x s with ⟨_ | a, t⟩
  · rfl
  · rfl

instance : LawfulMonad (Eff ε σ) :=
  LawfulMonad.mk' _
    (fun x => by
      funext s
      change (x >>= pure) s = x s
      rw [bind_apply]
      rcases x s with ⟨_ | a, t⟩
      · rfl
      · rfl)
    (fun _ _ => rfl) fun x f g => bind_assoc x f g

/-- A sequence that returns has returned in each part. -/
theorem bind_eq_ok {x : Eff ε σ α} {f : α → Eff ε σ β} {s s' : σ} {b : β} :
    (x >>= f) s = (.ok b, s') ↔ ∃ a t, x s = (.ok a, t) ∧ f a t = (.ok b, s') := by
  rw [bind_apply]
  rcases h : x s with ⟨_ | a, t⟩
  · simp
  · simp

theorem ofExcept_bind_eq_ok {x : Except ε α} {f : α → Eff ε σ β} {s s' : σ} {b : β} :
    (ofExcept x >>= f) s = (.ok b, s') ↔ ∃ a, x = .ok a ∧ f a s = (.ok b, s') := by
  rw [bind_apply, ofExcept_apply]
  rcases x with _ | a
  · simp
  · simp

/-- A sequence that raises has raised in its first part or in the rest of it. -/
theorem bind_eq_error {x : Eff ε σ α} {f : α → Eff ε σ β} {s s' : σ} {e : ε} :
    (x >>= f) s = (.error e, s') ↔
      x s = (.error e, s') ∨ ∃ a t, x s = (.ok a, t) ∧ f a t = (.error e, s') := by
  rw [bind_apply]
  rcases h : x s with ⟨_ | a, t⟩
  · simp
  · simp

theorem zoom_apply (get : τ → σ) (put : σ → τ → τ) (x : Eff ε σ α) (t : τ) :
    zoom get put x t = ((x (get t)).1, put (x (get t)).2 t) := rfl

theorem zoom_eq_ok {get : τ → σ} {put : σ → τ → τ} {x : Eff ε σ α} {t t' : τ} {a : α} :
    zoom get put x t = (.ok a, t') ↔ ∃ s, x (get t) = (.ok a, s) ∧ t' = put s t := by
  rw [zoom_apply]
  rcases x (get t) with ⟨r, s⟩
  simp [eq_comm]

theorem handle_eq_ok {x : Eff ε σ α} {h : ε → Eff ε σ α} {s s' : σ} {a : α} :
    handle x h s = (.ok a, s') ↔
      x s = (.ok a, s') ∨ ∃ e t, x s = (.error e, t) ∧ h e t = (.ok a, s') := by
  rw [handle]
  rcases hx : x s with ⟨_ | b, t⟩
  · simp
  · simp

section Keeps

/-- Every exit of `m`, returning or raising, is `R`-related to its entry. -/
def Keeps (R : σ → σ → Prop) (m : Eff ε σ α) : Prop := ∀ s, R s (m s).2

variable {R : σ → σ → Prop} [IsPreorder σ R]

theorem Keeps.pure (a : α) : Keeps R (pure a : Eff ε σ α) := fun s => refl_of R s

theorem Keeps.raise (e : ε) : Keeps R (raise e : Eff ε σ α) := fun s => refl_of R s

theorem Keeps.read : Keeps R (read : Eff ε σ σ) := fun s => refl_of R s

theorem Keeps.asks (f : σ → α) : Keeps R (asks f : Eff ε σ α) := fun s => refl_of R s

theorem Keeps.ofExcept (x : Except ε α) : Keeps R (ofExcept x : Eff ε σ α) := fun s => refl_of R s

theorem Keeps.bind {x : Eff ε σ α} {f : α → Eff ε σ β} (hx : Keeps R x) (hf : ∀ a, Keeps R (f a)) :
    Keeps R (x >>= f) := by
  intro s
  have h := hx s
  rw [bind_apply]
  rcases hs : x s with ⟨_ | a, t⟩ <;> rw [hs] at h
  · exact h
  · exact trans_of R h (hf a t)

/-- The rest of a sequence may use what the first part returned, and from where. -/
theorem Keeps.bind_of {x : Eff ε σ α} {f : α → Eff ε σ β} (hx : Keeps R x)
    (hf : ∀ s a t, x s = (.ok a, t) → R t (f a t).2) : Keeps R (x >>= f) := by
  intro s
  have h := hx s
  rw [bind_apply]
  rcases hs : x s with ⟨_ | a, t⟩ <;> rw [hs] at h
  · exact h
  · exact trans_of R h (hf s a t hs)

theorem Keeps.map {x : Eff ε σ α} (f : α → β) (hx : Keeps R x) : Keeps R (f <$> x) :=
  hx.bind fun a => Keeps.pure (f a)

theorem Keeps.handle {x : Eff ε σ α} {h : ε → Eff ε σ α} (hx : Keeps R x)
    (hh : ∀ e, Keeps R (h e)) : Keeps R (handle x h) := by
  intro s
  have h' := hx s
  rw [Eff.handle]
  rcases hs : x s with ⟨e | a, t⟩ <;> rw [hs] at h'
  · exact trans_of R h' (hh e t)
  · exact h'

omit [IsPreorder σ R] in
theorem Keeps.ite {c : Prop} [Decidable c] {x y : Eff ε σ α} (hx : Keeps R x) (hy : Keeps R y) :
    Keeps R (if c then x else y) := by
  split
  · exact hx
  · exact hy

theorem Keeps.when {c : Prop} [Decidable c] {x : Eff ε σ Unit} (hx : Keeps R x) :
    Keeps R (when c x) :=
  .ite hx (.pure ())

/-- `R` on a part of the state. -/
def Along (f : τ → σ) (R : σ → σ → Prop) (t t' : τ) : Prop := R (f t) (f t')

instance (f : τ → σ) : IsPreorder τ (Along f R) where
  refl t := refl_of R (f t)
  trans _ _ _ h h' := trans_of R h h'

omit [IsPreorder σ R] in
theorem Keeps.zoom {get : τ → σ} {put : σ → τ → τ} (hput : ∀ s t, get (put s t) = s)
    {x : Eff ε σ α} (hx : Keeps R x) : Keeps (Along get R) (zoom get put x) := by
  intro t
  rw [zoom_apply, Along, hput]
  exact hx (get t)

/-- Leaving a part of the state as it is. -/
instance keepsPart {γ : Type} (f : σ → γ) : IsPreorder σ fun s s' => f s' = f s where
  refl _ := rfl
  trans _ _ _ h h' := h'.trans h

omit [IsPreorder σ R] in
theorem Keeps.of_ok {m : Eff ε σ α} (hm : Keeps R m) {s s' : σ} {r : Except ε α}
    (h : m s = (r, s')) : R s s' := by
  simpa only [h] using hm s

end Keeps

section KeepsUnless

/-- Every exit of `m` but a raise of a `bad` error is `R`-related to its entry. -/
def KeepsUnless (bad : ε → Prop) (R : σ → σ → Prop) (m : Eff ε σ α) : Prop :=
  ∀ s, match m s with
    | (.ok _, s') => R s s'
    | (.error e, s') => bad e ∨ R s s'

variable {bad : ε → Prop} {R : σ → σ → Prop}

theorem Keeps.unless {m : Eff ε σ α} (hm : Keeps R m) : KeepsUnless bad R m := by
  intro s
  have h := hm s
  rcases hr : m s with ⟨e | a, t⟩ <;> rw [hr] at h
  · exact .inr h
  · exact h

theorem KeepsUnless.keeps {m : Eff ε σ α} (hm : KeepsUnless (fun _ => False) R m) : Keeps R m := by
  intro s
  have h := hm s
  rcases hr : m s with ⟨e | a, t⟩ <;> rw [hr] at h
  · exact h.resolve_left id
  · exact h

theorem KeepsUnless.weaken {bad' : ε → Prop} {m : Eff ε σ α} (hm : KeepsUnless bad R m)
    (h : ∀ e, bad e → bad' e) : KeepsUnless bad' R m := by
  intro s
  have hs := hm s
  rcases hr : m s with ⟨e | a, t⟩ <;> rw [hr] at hs
  · exact hs.imp_left (h e)
  · exact hs

theorem KeepsUnless.of_ok {m : Eff ε σ α} (hm : KeepsUnless bad R m) {s s' : σ} {a : α}
    (h : m s = (.ok a, s')) : R s s' := by
  simpa only [h] using hm s

theorem KeepsUnless.of_error {m : Eff ε σ α} (hm : KeepsUnless bad R m) {s s' : σ} {e : ε}
    (h : m s = (.error e, s')) : bad e ∨ R s s' := by
  simpa only [h] using hm s

theorem KeepsUnless.ite {c : Prop} [Decidable c] {x y : Eff ε σ α} (hx : KeepsUnless bad R x)
    (hy : KeepsUnless bad R y) : KeepsUnless bad R (if c then x else y) := by
  split
  · exact hx
  · exact hy

theorem KeepsUnless.zoom {get : τ → σ} {put : σ → τ → τ} (hput : ∀ s t, get (put s t) = s)
    {x : Eff ε σ α} (hx : KeepsUnless bad R x) :
    KeepsUnless bad (Along get R) (zoom get put x) := by
  intro t
  have h := hx (get t)
  rw [zoom_apply]
  rcases hr : x (get t) with ⟨_ | _, s⟩ <;> rw [hr] at h <;> simpa only [Along, hput] using h

variable [IsPreorder σ R]

theorem KeepsUnless.pure (a : α) : KeepsUnless bad R (pure a : Eff ε σ α) := (Keeps.pure a).unless

theorem KeepsUnless.raise (e : ε) : KeepsUnless bad R (raise e : Eff ε σ α) :=
  (Keeps.raise e).unless

theorem KeepsUnless.read : KeepsUnless bad R (read : Eff ε σ σ) := Keeps.read.unless

theorem KeepsUnless.ofExcept (x : Except ε α) : KeepsUnless bad R (ofExcept x : Eff ε σ α) :=
  (Keeps.ofExcept x).unless

theorem KeepsUnless.bind {x : Eff ε σ α} {f : α → Eff ε σ β} (hx : KeepsUnless bad R x)
    (hf : ∀ a, KeepsUnless bad R (f a)) : KeepsUnless bad R (x >>= f) := by
  intro s
  have h := hx s
  rcases hs : x s with ⟨_ | a, t⟩ <;> rw [hs] at h
  · rw [bind_of_error hs]
    exact h
  · have ha := hf a t
    rw [bind_of_ok hs]
    rcases ht : f a t with ⟨_ | b, u⟩ <;> rw [ht] at ha
    · exact ha.imp_right (trans_of R h)
    · exact trans_of R h ha

theorem KeepsUnless.map {x : Eff ε σ α} (f : α → β) (hx : KeepsUnless bad R x) :
    KeepsUnless bad R (f <$> x) :=
  hx.bind fun a => .pure (f a)

theorem KeepsUnless.when {c : Prop} [Decidable c] {x : Eff ε σ Unit} (hx : KeepsUnless bad R x) :
    KeepsUnless bad R (when c x) :=
  .ite hx (.pure ())

/-- A handler that passes the bad errors on. -/
theorem KeepsUnless.handle {x : Eff ε σ α} {h : ε → Eff ε σ α} (hx : KeepsUnless bad R x)
    (hbad : ∀ e, bad e → h e = Eff.raise e) (hh : ∀ e, KeepsUnless bad R (h e)) :
    KeepsUnless bad R (handle x h) := by
  intro s
  have h' := hx s
  rw [Eff.handle]
  rcases hs : x s with ⟨e | a, t⟩ <;> rw [hs] at h'
  · rcases h' with h' | h'
    · simp only [hbad e h']
      exact .inl h'
    · have he := hh e t
      rcases ht : h e t with ⟨_ | b, u⟩ <;> rw [ht] at he
      · simpa only [ht] using he.imp_right (trans_of R h')
      · simpa only [ht] using trans_of R h' he
  · exact h'

end KeepsUnless

section Triple

/-- From every state that satisfies `P`, whatever `m` returns satisfies `Q` with the state it
leaves. -/
def Triple (P : σ → Prop) (m : Eff ε σ α) (Q : α → σ → Prop) : Prop :=
  ∀ s, P s → ∀ a s', m s = (.ok a, s') → Q a s'

variable {P : σ → Prop} {Q : α → σ → Prop}

theorem Triple.pure {a : α} (h : ∀ s, P s → Q a s) : Triple P (pure a : Eff ε σ α) Q := by
  intro s hs b s' hb
  cases hb
  exact h s hs

theorem Triple.raise (e : ε) : Triple P (raise e : Eff ε σ α) Q := by
  intro s _ a s' h
  cases h

theorem Triple.bind {x : Eff ε σ α} {f : α → Eff ε σ β} {S : β → σ → Prop} (hx : Triple P x Q)
    (hf : ∀ a, Triple (Q a) (f a) S) : Triple P (x >>= f) S := by
  intro s hs b s' h
  obtain ⟨a, t, ha, hb⟩ := bind_eq_ok.mp h
  exact hf a t (hx s hs a t ha) b s' hb

/-- What holds of the rest from any state holds of the whole. -/
theorem Triple.skip {x : Eff ε σ α} {f : α → Eff ε σ β} {S : β → σ → Prop}
    (hf : ∀ a, Triple (fun _ => True) (f a) S) : Triple P (x >>= f) S := by
  intro s _ b s' h
  obtain ⟨a, t, -, hb⟩ := bind_eq_ok.mp h
  exact hf a t trivial b s' hb

theorem Triple.ite {c : Prop} [Decidable c] {x y : Eff ε σ α} (hx : c → Triple P x Q)
    (hy : ¬c → Triple P y Q) : Triple P (if c then x else y) Q := by
  split
  · exact hx ‹c›
  · exact hy ‹¬c›

theorem Triple.ofExcept {x : Except ε α} (h : ∀ a s, x = .ok a → P s → Q a s) :
    Triple P (ofExcept x : Eff ε σ α) Q := by
  intro s hs a s' hr
  obtain ⟨hx, rfl⟩ := Prod.mk.inj hr
  exact h a s hx hs

theorem Triple.and {m : Eff ε σ α} {P' : σ → Prop} {Q' : α → σ → Prop} (h : Triple P m Q)
    (h' : Triple P' m Q') : Triple (fun s => P s ∧ P' s) m fun a s => Q a s ∧ Q' a s :=
  fun s hs a s' hr => ⟨h s hs.1 a s' hr, h' s hs.2 a s' hr⟩

/-- A fact about no state may be taken out of the precondition. -/
theorem Triple.given {m : Eff ε σ α} {p : Prop} (h : ∀ s, P s → p) (hm : p → Triple P m Q) :
    Triple P m Q :=
  fun s hs => hm (h s hs) s hs

theorem Triple.weaken {m : Eff ε σ α} {Q' : α → σ → Prop} (hm : Triple P m Q)
    (h : ∀ a s, Q a s → Q' a s) : Triple P m Q' :=
  fun s hs a s' hr => h a s' (hm s hs a s' hr)

end Triple

section Spec

/-- From every state that satisfies `P`, `m` returns with `Q` or raises with `E`. -/
def Spec (P : σ → Prop) (m : Eff ε σ α) (Q : α → σ → Prop) (E : ε → σ → Prop) : Prop :=
  ∀ s, P s → match m s with
    | (.ok a, s') => Q a s'
    | (.error e, s') => E e s'

variable {P : σ → Prop} {Q : α → σ → Prop} {E : ε → σ → Prop}

theorem Spec.pure {a : α} (h : ∀ s, P s → Q a s) : Spec P (pure a : Eff ε σ α) Q E := h

theorem Spec.raise {e : ε} (h : ∀ s, P s → E e s) : Spec P (raise e : Eff ε σ α) Q E := h

theorem Spec.update {f : σ → σ} {Q : Unit → σ → Prop} (h : ∀ s, P s → Q () (f s)) :
    Spec P (update f : Eff ε σ Unit) Q E := h

theorem Spec.bind {x : Eff ε σ α} {f : α → Eff ε σ β} {S : β → σ → Prop} (hx : Spec P x Q E)
    (hf : ∀ a, Spec (Q a) (f a) S E) : Spec P (x >>= f) S E := by
  intro s hs
  have h := hx s hs
  rw [bind_apply]
  rcases hr : x s with ⟨e | a, t⟩ <;> rw [hr] at h
  · exact h
  · exact hf a t h

/-- The rest of a sequence that starts by reading the state knows it. -/
theorem Spec.read_bind {k : σ → Eff ε σ α} (hk : ∀ s, P s → Spec (fun s' => s' = s) (k s) Q E) :
    Spec P (read >>= k) Q E :=
  fun s hs => hk s hs s rfl

/-- A computation that leaves the part of the state that `p` sees. -/
theorem Spec.of_keeps {γ : Type} {f : σ → γ} {m : Eff ε σ α}
    (hm : Keeps (fun s s' => f s' = f s) m) (p : γ → Prop) :
    Spec (fun s => p (f s)) m (fun _ s => p (f s)) fun _ s => p (f s) := by
  intro s hs
  have h := hm s
  rcases hr : m s with ⟨e | a, t⟩ <;> rw [hr] at h
  · exact (congrArg p h).mpr hs
  · exact (congrArg p h).mpr hs

theorem Spec.zoom {get : τ → σ} {put : σ → τ → τ} (hput : ∀ s t, get (put s t) = s)
    {x : Eff ε σ α} (hx : Spec P x Q E) :
    Spec (fun t => P (get t)) (zoom get put x) (fun a t => Q a (get t)) fun e t => E e (get t) := by
  intro t ht
  have h := hx (get t) ht
  rw [zoom_apply]
  rcases hr : x (get t) with ⟨_ | _, s⟩ <;> rw [hr] at h <;> simpa only [hput] using h

theorem Spec.weaken {m : Eff ε σ α} {P' : σ → Prop} {Q' : α → σ → Prop} {E' : ε → σ → Prop}
    (hm : Spec P m Q E) (hp : ∀ s, P' s → P s) (hq : ∀ a s, Q a s → Q' a s)
    (he : ∀ e s, E e s → E' e s) : Spec P' m Q' E' := by
  intro s hs
  have h := hm s (hp s hs)
  rcases hr : m s with ⟨e | a, t⟩ <;> rw [hr] at h
  · exact he e t h
  · exact hq a t h

theorem Spec.of_ok {m : Eff ε σ α} (hm : Spec P m Q E) {s s' : σ} {a : α} (hs : P s)
    (h : m s = (.ok a, s')) : Q a s' := by
  simpa only [h] using hm s hs

theorem Spec.of_error {m : Eff ε σ α} (hm : Spec P m Q E) {s s' : σ} {e : ε} (hs : P s)
    (h : m s = (.error e, s')) : E e s' := by
  simpa only [h] using hm s hs

/-- What every exit keeps, seen from any earlier state. -/
theorem Keeps.spec {R : σ → σ → Prop} [IsPreorder σ R] {m : Eff ε σ α} (hm : Keeps R m) (s₀ : σ) :
    Spec (R s₀) m (fun _ => R s₀) fun _ => R s₀ := by
  intro s hs
  have h := trans_of R hs (hm s)
  rcases hr : m s with ⟨_ | _, t⟩ <;> rw [hr] at h <;> exact h

theorem Keeps.of_spec {R : σ → σ → Prop} [IsPreorder σ R] {m : Eff ε σ α}
    (hm : ∀ s₀, Spec (R s₀) m (fun _ => R s₀) fun _ => R s₀) : Keeps R m := by
  intro s
  have h := hm s s (refl_of R s)
  rcases hr : m s with ⟨_ | _, t⟩ <;> rw [hr] at h <;> exact h

end Spec

end Eff

end Astreum

import Astreum.Apply

namespace Astreum

open Eff

/-- Reads of accounts, writes of their data and writes outside the accounts are within `R`. -/
structure Neutral (c : Ctx) (R : Ledger → Ledger → Prop) : Prop where
  read : ∀ a, Keeps R (getAccount c a)
  data : ∀ a tree, Keeps R (setData a tree)
  rest : ∀ f : Ledger → Ledger, (∀ l, (f l).cache = l.cache) →
    Keeps R (Eff.update f : Stateful Ledger Unit)

theorem keeps_held {R : Ledger → Ledger → Prop} [IsPreorder Ledger R] (a : Bytes) :
    Keeps R (held a) := by
  intro l
  rw [held]
  split <;> exact refl_of R l

section Reads

variable {c : Ctx} {R : Ledger → Ledger → Prop} [IsPreorder Ledger R]

theorem keeps_innerExprs (e : Expr) : Keeps R (innerExprs c e) :=
  (Keeps.ofExcept _).bind fun _ => .pure _

theorem keeps_channelState (owner counterparty : Bytes) :
    Keeps R (channelState c owner counterparty) :=
  (keeps_held owner).bind fun _ => .ofExcept _

theorem keeps_openLoan (user loanId : Bytes) : Keeps R (openLoan c user loanId) := by
  refine (keeps_held _).bind fun _ => (Keeps.ofExcept _).bind fun record => ?_
  rcases record with _ | record
  · exact .pure _
  refine .ite (.pure _) ((Keeps.ofExcept _).bind fun loan => ?_)
  rcases loan with _ | loan
  · exact .pure _
  · exact .ite (.pure _) (.pure _)

end Reads

variable {c : Ctx} {R : Ledger → Ledger → Prop} (hn : Neutral c R)

include hn

protected theorem Neutral.involve (a : Bytes) : Keeps R (involve a) := hn.rest _ fun _ => rfl

protected theorem Neutral.extendPendingExprs (exprs : List Expr) :
    Keeps R (extendPendingExprs exprs) :=
  hn.rest _ fun _ => rfl

protected theorem Neutral.addDefaulted (amount : Int) : Keeps R (addDefaulted amount) :=
  hn.rest _ fun _ => rfl

protected theorem Neutral.addLoaned (amount : Int) : Keeps R (addLoaned amount) :=
  hn.rest _ fun _ => rfl

protected theorem Neutral.countClaim : Keeps R countClaim := hn.rest _ fun _ => rfl

protected theorem Neutral.addVotes (votes : Int) : Keeps R (addVotes votes) :=
  hn.rest _ fun _ => rfl

variable [IsPreorder Ledger R]

protected theorem Neutral.pendChannel (channel : Channel) : Keeps R (pendChannel c channel) :=
  (Keeps.ofExcept _).bind fun _ => hn.extendPendingExprs _

protected theorem Neutral.putUserRecord (user : Bytes) (record : TreasuryUserRecord) :
    Keeps R (putUserRecord user record) :=
  (keeps_held _).bind fun _ => (Keeps.ofExcept _).bind fun _ => hn.data _ _

protected theorem Neutral.releaseEach (returned : List (Bytes × Int)) :
    Keeps R (releaseEach c returned) := by
  induction returned with
  | nil => exact .pure _
  | cons r rest ih =>
    refine .ite ih ((keeps_held _).bind fun _ => (Keeps.ofExcept _).bind fun record => ?_)
    rcases record with _ | record
    · exact ih
    · refine (hn.putUserRecord _ _).bind fun _ => (keeps_innerExprs _).bind fun _ => ?_
      exact ih.bind fun _ => .pure _

protected theorem Neutral.releaseGuarantees (loan : TreasuryLoanRecord) :
    Keeps R (releaseGuarantees c loan) :=
  .ite (.pure _) (hn.releaseEach _)

protected theorem Neutral.releaseGuaranteesIf (done : Bool) (loan : TreasuryLoanRecord) :
    Keeps R (releaseGuaranteesIf c done loan) :=
  .ite (hn.releaseGuarantees loan) (.pure _)

protected theorem Neutral.putLoan (user loanId : Bytes) (o : OpenLoan) (loan : TreasuryLoanRecord)
    (update : TreasuryUserRecord → TreasuryUserRecord) :
    Keeps R (putLoan c user loanId o loan update) :=
  (Keeps.ofExcept _).bind fun _ => (keeps_innerExprs _).bind fun _ =>
    (hn.putUserRecord _ _).bind fun _ => .pure _

protected theorem Neutral.namedLoan (t : Transaction) : Keeps R (namedLoan c t) := by
  rw [Astreum.namedLoan]
  split
  · refine (Keeps.ofExcept _).bind fun _ => (hn.read _).bind fun _ => ?_
    refine .ite (.pure _) ((keeps_openLoan _ _).bind fun o => ?_)
    rcases o with _ | o
    · exact .pure _
    · exact .pure _
  · exact .pure _

protected theorem Neutral.buyQuote (t : Transaction) : Keeps R (buyQuote c t) := by
  refine (hn.namedLoan _).bind fun named => ?_
  rcases named with _ | ⟨loanId, borrower, o⟩
  · exact .pure _
  refine .ite (.pure _) ?_
  rcases remainingPaymentCount o.loan with _ | remaining
  · exact .pure _
  refine .ite (.pure _) ((Keeps.ofExcept _).bind fun rate => ?_)
  rcases rate with _ | ⟨numerator, denominator⟩
  · exact .pure _
  simp only
  split
  · exact .ite (.pure _) (.pure _)
  · exact .pure _

protected theorem Neutral.handleTreasuryGuarantee (t : Transaction) (transactionHash : Bytes) :
    Keeps R (handleTreasuryGuarantee c t transactionHash) := by
  refine .ite (.pure _) ((hn.read _).bind fun _ => .ite (.pure _) ?_)
  split
  · refine .ite (.pure _) ((Keeps.ofExcept _).bind fun _ => .ite (.pure _) ?_)
    refine (Keeps.ofExcept _).bind fun _ => .ite (.pure _) ?_
    refine (Keeps.ofExcept _).bind fun _ => .ite (.pure _) ?_
    refine (Keeps.ofExcept _).bind fun _ => .ite (.pure _) ?_
    refine (keeps_held _).bind fun _ => (Keeps.ofExcept _).bind fun _ => .ite (.pure _) ?_
    refine (Keeps.ofExcept _).bind fun _ => (keeps_innerExprs _).bind fun _ => ?_
    refine (hn.putUserRecord _ _).bind fun _ => (keeps_innerExprs _).bind fun _ => ?_
    exact (hn.extendPendingExprs _).bind fun _ => .pure _
  · exact .pure _

protected theorem Neutral.depositRecord (t : Transaction) (r : Recipient) (amount : Int) :
    Keeps R (depositRecord c t r amount) := by
  cases r with
  | none => exact .pure _
  | fresh account => exact .pure _
  | held =>
    refine (keeps_held _).bind fun _ => (Keeps.ofExcept _).bind fun record => ?_
    rcases record with _ | record
    · exact .pure _
    · exact (hn.putUserRecord _ _).bind fun _ => .pure _

end Astreum

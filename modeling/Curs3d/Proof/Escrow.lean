import Curs3d.Contracts.Escrow

/-!
# The escrow pays once, and can

A successful call changes one listing at most, and in one of four ways (`Change`). From that alone: the
balance covers the listings whose price is held, each listing has been paid out once if its status says so and not at all
otherwise, to the account that its status names (`Sound`), and a listing in a terminal state is not
written again (`Kept`). A payment writes the status and takes the price out of the balance before the
recipient's code runs, so all of it also holds while that code calls the contract again, and after any
reverts (`escrow_safe`).

The listing counter is incremented unchecked. After 2^256 listings the ids begin again, and a new listing
replaces an old one whatever its state (`wrapped_id_replaces_listing`).
-/

set_option autoImplicit false

namespace Curs3d

open Solidity

namespace EscrowStatus

/-- The price of the listing is in the contract. -/
def escrowed : EscrowStatus → Bool
  | .funded => true
  | .accepted => true
  | .disputed => true
  | _ => false

/-- The price has been paid out. -/
def settled : EscrowStatus → Bool
  | .paidToSeller => true
  | .refundedToBuyer => true
  | _ => false

def terminal : EscrowStatus → Bool
  | .cancelled => true
  | s => s.settled

end EscrowStatus

/-- What the contract holds for a listing. -/
def Listing.owed (l : Listing) : Nat := if l.status.escrowed then l.price else 0

/-- Whom a settled listing was paid to. -/
def Listing.payee (l : Listing) : Address := if l.status = .paidToSeller then l.seller else l.buyer

namespace DigitalEscrow

variable {e e' : DigitalEscrow} {msg : EscrowMessage} {listingId : Nat} {l l' : Listing}
variable {status : EscrowStatus} {u : Unit}

def owed (e : DigitalEscrow) : Nat := KeyMap.sumBy Listing.owed e.listings

def payoutsOf (e : DigitalEscrow) (listingId : Nat) : List Payout :=
  e.payouts.filter fun p => p.listingId = listingId

structure Sound (e : DigitalEscrow) : Prop where
  solvent : e.owed ≤ e.balance
  counted : e.listingCount < 2 ^ 256
  fresh : ∀ listingId, e.listingCount < listingId → e.listings[listingId]? = none
  paidOnce : ∀ listingId,
    (e.payoutsOf listingId).length = if (e.listing listingId).status.settled then 1 else 0
  paidTo : ∀ p ∈ e.payouts, p.amount = (e.listing p.listingId).price ∧
    p.recipient = (e.listing p.listingId).payee

/-- Listings in a terminal state stay as they are. -/
def Kept (e e' : DigitalEscrow) : Prop :=
  ∀ listingId, (e.listing listingId).status.terminal → e'.listing listingId = e.listing listingId

theorem Kept.refl (e : DigitalEscrow) : Kept e e := fun _ _ => rfl

theorem Kept.trans {e'' : DigitalEscrow} (h : Kept e e') (h' : Kept e' e'') : Kept e e'' := by
  intro listingId hterminal
  have hsame := h listingId hterminal
  rw [← hsame] at hterminal ⊢
  exact h' listingId hterminal

/-! ## What a call does -/

/-- The function that takes a new id. -/
def Function.lists : Function → Bool
  | .list _ _ _ _ => true
  | _ => false

/-- The changes that a call makes; only one of them is made by `list`. -/
inductive Change (e e' : DigitalEscrow) : Bool → Prop where
  /-- No listing is touched. -/
  | admin (hlistings : e'.listings = e.listings) (hcount : e'.listingCount = e.listingCount)
      (hpayouts : e'.payouts = e.payouts) (hbalance : e.balance ≤ e'.balance) : Change e e' false
  /-- A listing begins, under the next id. -/
  | listed (l : Listing) (hstatus : l.status = .listed)
      (hlistings : e'.listings = e.listings.insert e.nextListingId l)
      (hcount : e'.listingCount = e.nextListingId) (hpayouts : e'.payouts = e.payouts)
      (hbalance : e'.balance = e.balance) : Change e e' true
  /-- A listing goes on, without a payment. -/
  | moved (listingId : Nat) (l : Listing) (hopen : (e.listing listingId).status.terminal = false)
      (hexists : (e.listing listingId).status ≠ .none) (hunpaid : l.status.settled = false)
      (hlistings : e'.listings = e.listings.insert listingId l)
      (hcount : e'.listingCount = e.listingCount) (hpayouts : e'.payouts = e.payouts)
      (hbalance : l.owed + e.balance = (e.listing listingId).owed + e'.balance) :
      Change e e' false
  /-- A listing whose price is held is paid out. -/
  | paid (listingId : Nat) (status : EscrowStatus) (hheld : (e.listing listingId).status.escrowed = true)
      (hsettled : status.settled = true)
      (hlistings : e'.listings = e.listings.insert listingId { e.listing listingId with
        status := status })
      (hcount : e'.listingCount = e.listingCount)
      (hpayouts : e'.payouts = e.payouts ++ [⟨listingId,
        Listing.payee { e.listing listingId with
          status := status }, (e.listing listingId).price⟩])
      (hbalance : (e.listing listingId).price ≤ e.balance)
      (hrest : e'.balance = e.balance - (e.listing listingId).price) : Change e e' false

theorem requireStatus_eq_ok (h : requireStatus l status = .ok u) :
    l.status ≠ .none ∧ l.status = status := by
  simp only [requireStatus, Outcome.except_bind_eq_ok, require_eq_ok] at h
  obtain ⟨-, hexists, hstatus⟩ := h
  exact ⟨hexists, hstatus⟩

theorem enter_eq_ok (h : e.enter = .ok e') : e' = { e with locked := true } := by
  simp only [enter, Outcome.except_bind_eq_ok, pure, Except.pure, Except.ok.injEq] at h
  obtain ⟨-, -, rfl⟩ := h
  rfl

/-- A payment of a listing whose price is held, to whom its new status names. -/
theorem Change.of_sendValue {recipient : Address} (hheld : (e.listing listingId).status.escrowed = true)
    (hsettled : status.settled = true)
    (hpayee : recipient = Listing.payee { e.listing listingId with
      status := status })
    (h : (setListing { e with locked := true } listingId { e.listing listingId with
      status := status }).sendValue listingId recipient (e.listing listingId).price = .ok e') :
    Change e e' false := by
  simp only [sendValue, Outcome.except_bind_eq_ok, require_eq_ok, pure, Except.pure,
    Except.ok.injEq] at h
  obtain ⟨-, hbalance, rfl⟩ := h
  exact .paid listingId status hheld hsettled rfl rfl (by rw [hpayee]; rfl) hbalance rfl

theorem change_list {itemHash price lockWindow : Nat} {uri : String}
    (h : e.list msg itemHash uri price lockWindow = .ok e') : Change e e' true := by
  simp only [list, Outcome.except_bind_eq_ok, pure, Except.pure, Except.ok.injEq] at h
  obtain ⟨-, -, -, -, -, -, rfl⟩ := h
  exact .listed _ rfl rfl rfl rfl rfl

theorem change_cancelListing (h : e.cancelListing msg listingId = .ok e') : Change e e' false := by
  simp only [cancelListing, Outcome.except_bind_eq_ok, pure, Except.pure, Except.ok.injEq] at h
  obtain ⟨entered, henter, _, hrequire, -, -, rfl⟩ := h
  have hentered := enter_eq_ok henter
  subst hentered
  obtain ⟨hexists, hstatus⟩ := requireStatus_eq_ok hrequire
  have hstatus : (e.listing listingId).status = .listed := hstatus
  refine .moved listingId _ (by rw [hstatus]; rfl) hexists rfl rfl rfl rfl ?_
  simp only [Listing.owed, hstatus]
  rfl

theorem change_accept (h : e.accept msg listingId = .ok e') : Change e e' false := by
  simp only [accept, Outcome.except_bind_eq_ok, pure, Except.pure, Except.ok.injEq] at h
  obtain ⟨_, hrequire, -, -, -, -, rfl⟩ := h
  obtain ⟨hexists, hstatus⟩ := requireStatus_eq_ok hrequire
  refine .moved listingId _ (by rw [hstatus]; rfl) hexists rfl rfl rfl rfl ?_
  simp only [Listing.owed, hstatus]
  rfl

theorem change_buy (h : e.buy msg listingId = .ok e') : Change e e' false := by
  simp only [buy, Outcome.except_bind_eq_ok, require_eq_ok, pure, Except.pure, Except.ok.injEq] at h
  obtain ⟨-, -, entered, henter, _, hrequire, -, hvalue, rfl⟩ := h
  have hentered := enter_eq_ok henter
  subst hentered
  obtain ⟨hexists, hstatus⟩ := requireStatus_eq_ok hrequire
  have hstatus : (e.listing listingId).status = .listed := hstatus
  have hvalue : msg.value = (e.listing listingId).price := hvalue
  refine .moved listingId _ (by rw [hstatus]; rfl) hexists rfl rfl rfl rfl ?_
  simp only [Listing.owed, hstatus]
  show (e.listing listingId).price + e.balance = 0 + (e.balance + msg.value)
  rw [hvalue, Nat.zero_add, Nat.add_comm]

theorem change_dispute (h : e.dispute msg listingId = .ok e') : Change e e' false := by
  simp only [dispute, Outcome.except_bind_eq_ok, pure, Except.pure, Except.ok.injEq] at h
  obtain ⟨_, hrequire, -, -, rfl⟩ := h
  obtain ⟨hexists, hstatus⟩ := requireStatus_eq_ok hrequire
  refine .moved listingId _ (by rw [hstatus]; rfl) hexists rfl rfl rfl rfl ?_
  simp only [Listing.owed, hstatus]
  rfl

theorem change_cancelAsBuyer (h : e.cancelAsBuyer msg listingId = .ok e') : Change e e' false := by
  simp only [cancelAsBuyer, Outcome.except_bind_eq_ok] at h
  obtain ⟨entered, henter, _, hrequire, -, -, hsend⟩ := h
  have hentered := enter_eq_ok henter
  subst hentered
  have hstatus : (e.listing listingId).status = .funded := (requireStatus_eq_ok hrequire).2
  exact .of_sendValue (by rw [hstatus]; rfl) rfl rfl hsend

theorem change_release (h : e.release msg listingId = .ok e') : Change e e' false := by
  simp only [release, Outcome.except_bind_eq_ok] at h
  obtain ⟨entered, henter, _, hrequire, -, -, hsend⟩ := h
  have hentered := enter_eq_ok henter
  subst hentered
  have hstatus : (e.listing listingId).status = .accepted := (requireStatus_eq_ok hrequire).2
  exact .of_sendValue (by rw [hstatus]; rfl) rfl rfl hsend

theorem change_resolveDispute {payToSeller : Bool}
    (h : e.resolveDispute msg listingId payToSeller = .ok e') : Change e e' false := by
  simp only [resolveDispute, Outcome.except_bind_eq_ok] at h
  obtain ⟨entered, henter, -, -, _, hrequire, hsend⟩ := h
  have hentered := enter_eq_ok henter
  subst hentered
  have hstatus : (e.listing listingId).status = .disputed := (requireStatus_eq_ok hrequire).2
  split at hsend
  · exact .of_sendValue (by rw [hstatus]; rfl) rfl rfl hsend
  · exact .of_sendValue (by rw [hstatus]; rfl) rfl rfl hsend

theorem change_timeoutPayout (h : e.timeoutPayout msg listingId = .ok e') : Change e e' false := by
  simp only [timeoutPayout, Outcome.except_bind_eq_ok] at h
  obtain ⟨entered, henter, _, hrequire, -, -, -, -, hsend⟩ := h
  have hentered := enter_eq_ok henter
  subst hentered
  have hstatus : (e.listing listingId).status = .accepted := (requireStatus_eq_ok hrequire).2
  exact .of_sendValue (by rw [hstatus]; rfl) rfl rfl hsend

/-- **Every successful call makes one of the changes.** -/
theorem change_apply {f : Function} (h : e.apply msg f = .ok e') :
    Change e e' f.lists := by
  cases f with
  | list itemHash uri price lockWindow => exact change_list h
  | cancelListing listingId => exact change_cancelListing h
  | accept listingId => exact change_accept h
  | buy listingId => exact change_buy h
  | cancelAsBuyer listingId => exact change_cancelAsBuyer h
  | release listingId => exact change_release h
  | dispute listingId => exact change_dispute h
  | resolveDispute listingId payToSeller => exact change_resolveDispute h
  | timeoutPayout listingId => exact change_timeoutPayout h
  | setArbitrator newArbitrator =>
    simp only [apply, setArbitrator, Outcome.except_bind_eq_ok, pure, Except.pure, Except.ok.injEq] at h
    obtain ⟨-, -, -, -, rfl⟩ := h
    exact .admin rfl rfl rfl (Nat.le_refl _)
  | pause =>
    simp only [apply, pause, Outcome.except_bind_eq_ok, pure, Except.pure, Except.ok.injEq] at h
    obtain ⟨-, -, -, -, rfl⟩ := h
    exact .admin rfl rfl rfl (Nat.le_refl _)
  | unpause =>
    simp only [apply, unpause, Outcome.except_bind_eq_ok, pure, Except.pure, Except.ok.injEq] at h
    obtain ⟨-, -, -, -, rfl⟩ := h
    exact .admin rfl rfl rfl (Nat.le_refl _)
  | transferOwnership newOwner =>
    simp only [apply, transferOwnership, Outcome.except_bind_eq_ok, pure, Except.pure,
      Except.ok.injEq] at h
    obtain ⟨-, -, -, -, rfl⟩ := h
    exact .admin rfl rfl rfl (Nat.le_refl _)
  | renounceOwnership =>
    simp only [apply, renounceOwnership, Outcome.except_bind_eq_ok, pure, Except.pure,
      Except.ok.injEq] at h
    obtain ⟨-, -, rfl⟩ := h
    exact .admin rfl rfl rfl (Nat.le_refl _)
  | forceEther =>
    cases h
    exact .admin rfl rfl rfl (Nat.le_add_right _ _)

/-! ## What the changes keep -/

theorem listing_insert (h : e'.listings = e.listings.insert listingId l) (id : Nat) :
    e'.listing id = if listingId = id then l else e.listing id := by
  simp only [listing, h, KeyMap.getElem?_insert_eq]
  split <;> rfl

theorem owed_insert (h : e'.listings = e.listings.insert listingId l) :
    e'.owed + (e.listing listingId).owed = e.owed + l.owed := by
  have hsum := KeyMap.sumBy_insert Listing.owed e.listings listingId l
  have hold : e.listings[listingId]?.elim 0 Listing.owed = (e.listing listingId).owed := by
    simp only [listing]
    cases e.listings[listingId]? <;> rfl
  rw [← h, hold] at hsum
  exact hsum

/-- Without a payment the record of payments still fits, when the rewritten listing had none and has none. -/
theorem Sound.payouts_insert (h : e.Sound) (hlistings : e'.listings = e.listings.insert listingId l)
    (hpayouts : e'.payouts = e.payouts) (hbefore : (e.listing listingId).status.settled = false)
    (hafter : l.status.settled = false) :
    (∀ id, (e'.payoutsOf id).length = if (e'.listing id).status.settled then 1 else 0) ∧
    ∀ p ∈ e'.payouts, p.amount = (e'.listing p.listingId).price ∧
      p.recipient = (e'.listing p.listingId).payee := by
  have hnone : e.payoutsOf listingId = [] := by
    apply List.eq_nil_of_length_eq_zero
    rw [h.paidOnce, hbefore]
    rfl
  constructor
  · intro id
    have hold := h.paidOnce id
    rw [listing_insert hlistings, payoutsOf, hpayouts]
    split
    · next heq =>
      subst heq
      rw [hafter]
      exact List.length_eq_zero_iff.mpr hnone
    · exact hold
  · intro p hp
    rw [hpayouts] at hp
    rw [listing_insert hlistings]
    split
    · next heq =>
      -- This listing has no payment.
      have hmem : p ∈ e.payoutsOf listingId := List.mem_filter.mpr ⟨hp, by simp [heq]⟩
      rw [hnone] at hmem
      exact absurd hmem (by simp)
    · exact h.paidTo p hp

theorem settled_of_terminal_false {s : EscrowStatus} (h : s.terminal = false) : s.settled = false := by
  cases s <;> simp_all [EscrowStatus.terminal, EscrowStatus.settled]

theorem terminal_of_escrowed {s : EscrowStatus} (h : s.escrowed = true) : s.terminal = false := by
  cases s <;> simp_all [EscrowStatus.escrowed, EscrowStatus.terminal, EscrowStatus.settled]

theorem escrowed_of_settled {s : EscrowStatus} (h : s.settled = true) : s.escrowed = false := by
  cases s <;> simp_all [EscrowStatus.escrowed, EscrowStatus.settled]

/-- A listing that exists has an id that was given. -/
theorem Sound.le_of_exists (h : e.Sound) (hexists : (e.listing listingId).status ≠ .none) :
    listingId ≤ e.listingCount := by
  by_contra hlt
  apply hexists
  simp only [listing, h.fresh listingId (Nat.lt_of_not_le hlt)]
  rfl

theorem fresh_insert (h : e.Sound) (hlistings : e'.listings = e.listings.insert listingId l)
    (hcount : e.listingCount ≤ e'.listingCount) (hid : listingId ≤ e'.listingCount) (id : Nat)
    (hlt : e'.listingCount < id) : e'.listings[id]? = none := by
  have hne : listingId ≠ id := Nat.ne_of_lt (Nat.lt_of_le_of_lt hid hlt)
  rw [hlistings, KeyMap.getElem?_insert_eq, if_neg hne]
  exact h.fresh id (Nat.lt_of_le_of_lt hcount hlt)

/-- The next id is the next number while there is one. -/
theorem nextListingId_eq (hroom : e.listingCount + 1 < 2 ^ 256) :
    e.nextListingId = e.listingCount + 1 := Nat.mod_eq_of_lt hroom

theorem Sound.listing_next (h : e.Sound) (hroom : e.listingCount + 1 < 2 ^ 256) :
    e.listing e.nextListingId = {} := by
  simp only [listing, nextListingId_eq hroom, h.fresh _ (Nat.lt_succ_self _)]
  rfl

/-- A payment of a listing keeps everything in order. -/
theorem Sound.paid (h : e.Sound) (hheld : (e.listing listingId).status.escrowed = true)
    (hsettled : status.settled = true)
    (hl : l = { e.listing listingId with
      status := status })
    (hlistings : e'.listings = e.listings.insert listingId l)
    (hcount : e'.listingCount = e.listingCount)
    (hpayouts : e'.payouts = e.payouts ++ [⟨listingId, l.payee, l.price⟩])
    (hbalance : l.price ≤ e.balance) (hrest : e'.balance = e.balance - l.price) : e'.Sound := by
  have hprice : (e.listing listingId).owed = l.price := by
    simp [Listing.owed, hheld, hl]
  have howed : l.owed = 0 := by
    simp [Listing.owed, hl, escrowed_of_settled hsettled]
  have hexists : (e.listing listingId).status ≠ .none := by
    intro hnone
    rw [hnone] at hheld
    exact absurd hheld (by simp [EscrowStatus.escrowed])
  have hbefore := settled_of_terminal_false (terminal_of_escrowed hheld)
  have hafter : l.status.settled = true := by
    rw [hl]
    exact hsettled
  have hid := h.le_of_exists hexists
  constructor
  · have hsum := owed_insert hlistings
    have hsolvent := h.solvent
    omega
  · rw [hcount]
    exact h.counted
  · exact fresh_insert h hlistings hcount.ge (hcount ▸ hid)
  · intro id
    have hold := h.paidOnce id
    rw [listing_insert hlistings, payoutsOf, hpayouts, List.filter_append, List.length_append]
    by_cases heq : listingId = id
    · subst heq
      rw [hbefore] at hold
      rw [if_pos rfl, hafter, ← payoutsOf, hold]
      simp
    · rw [if_neg heq, ← payoutsOf, hold]
      simp [heq]
  · intro p hp
    rw [hpayouts] at hp
    rw [listing_insert hlistings]
    rcases List.mem_append.mp hp with hp | hp
    · split
      · next heq =>
        -- This listing had no payment before.
        have hnone : (e.payoutsOf listingId).length = 0 := by
          rw [h.paidOnce, hbefore]
          rfl
        have hmem : p ∈ e.payoutsOf listingId := List.mem_filter.mpr ⟨hp, by simp [heq]⟩
        rw [List.length_eq_zero_iff.mp hnone] at hmem
        exact absurd hmem (by simp)
      · exact h.paidTo p hp
    · have hp := List.mem_singleton.mp hp
      subst hp
      rw [if_pos rfl]
      exact ⟨rfl, rfl⟩

/-- **A change keeps everything in order, as long as there are ids.** -/
theorem Sound.change {lists : Bool} (h : e.Sound) (hchange : Change e e' lists)
    (hroom : lists = true → e.listingCount + 1 < 2 ^ 256) : e'.Sound := by
  cases hchange with
  | admin hlistings hcount hpayouts hbalance =>
    have hlisting : ∀ id, e'.listing id = e.listing id := by
      intro id
      rw [listing, hlistings, listing]
    constructor
    · rw [owed, hlistings]
      exact Nat.le_trans h.solvent hbalance
    · rw [hcount]
      exact h.counted
    · rw [hcount, hlistings]
      exact h.fresh
    · intro id
      rw [payoutsOf, hpayouts, hlisting]
      exact h.paidOnce id
    · intro p hp
      rw [hpayouts] at hp
      rw [hlisting]
      exact h.paidTo p hp
  | listed l hstatus hlistings hcount hpayouts hbalance =>
    have hroom := hroom rfl
    -- The counter does not wrap, so the id of the new listing was never used.
    have hnext := nextListingId_eq hroom
    have hempty := h.listing_next hroom
    have hsettled : l.status.settled = false := by rw [hstatus]; rfl
    obtain ⟨honce, hto⟩ := h.payouts_insert hlistings hpayouts (by rw [hempty]; rfl) hsettled
    refine ⟨?_, ?_, ?_, honce, hto⟩
    · have hsum := owed_insert hlistings
      have hnew : l.owed = 0 := by simp [Listing.owed, hstatus, EscrowStatus.escrowed]
      have hsolvent := h.solvent
      omega
    · rw [hcount, hnext]
      exact hroom
    · exact fresh_insert h hlistings (by omega) (by omega)
  | moved id l hopen hexists hunpaid hlistings hcount hpayouts hbalance =>
    have hid := h.le_of_exists hexists
    obtain ⟨honce, hto⟩ := h.payouts_insert hlistings hpayouts (settled_of_terminal_false hopen) hunpaid
    refine ⟨?_, ?_, ?_, honce, hto⟩
    · have hsum := owed_insert hlistings
      have hsolvent := h.solvent
      omega
    · rw [hcount]
      exact h.counted
    · exact fresh_insert h hlistings hcount.ge (hcount ▸ hid)
  | paid id status hheld hsettled hlistings hcount hpayouts hbalance hrest =>
    exact h.paid hheld hsettled rfl hlistings hcount hpayouts hbalance hrest

/-- **A change writes no listing in a terminal state.** -/
theorem Sound.kept {lists : Bool} (h : e.Sound) (hchange : Change e e' lists)
    (hroom : lists = true → e.listingCount + 1 < 2 ^ 256) : Kept e e' := by
  intro id hterminal
  cases hchange with
  | admin hlistings hcount hpayouts hbalance => rw [listing, hlistings, listing]
  | listed l hstatus hlistings hcount hpayouts hbalance =>
    rw [listing_insert hlistings]
    split
    · next heq =>
      rw [← heq, h.listing_next (hroom rfl)] at hterminal
      exact absurd hterminal (by simp [EscrowStatus.terminal, EscrowStatus.settled])
    · rfl
  | moved other l hopen hexists hunpaid hlistings hcount hpayouts hbalance =>
    rw [listing_insert hlistings]
    split
    · next heq =>
      rw [← heq, hopen] at hterminal
      exact absurd hterminal (by simp)
    · rfl
  | paid other status hheld hsettled hlistings hcount hpayouts hbalance hrest =>
    rw [listing_insert hlistings]
    split
    · next heq =>
      rw [← heq, terminal_of_escrowed hheld] at hterminal
      exact absurd hterminal (by simp)
    · rfl

/-! ## Runs -/

/-- `list` is called only while there are ids. -/
def IdsLeft (w : World) (ev : Event) (_ : World) : Prop :=
  ∀ msg f, ev = .call (msg, f) → f.lists = true → w.state.listingCount + 1 < 2 ^ 256

/-- Solvency and single payout. -/
structure Safe (e : DigitalEscrow) : Prop where
  solvent : e.owed ≤ e.balance
  once : ∀ listingId, (e.payoutsOf listingId).length ≤ 1
  parties : ∀ p ∈ e.payouts, p.amount = (e.listing p.listingId).price ∧
    (p.recipient = (e.listing p.listingId).seller ∨ p.recipient = (e.listing p.listingId).buyer)
  exact : ∀ listingId, (e.listing listingId).status = .paidToSeller ∨
    (e.listing listingId).status = .refundedToBuyer ↔ e.payoutsOf listingId ≠ []

theorem settled_iff {s : EscrowStatus} : s.settled = true ↔ s = .paidToSeller ∨ s = .refundedToBuyer := by
  cases s <;> simp [EscrowStatus.settled]

theorem Sound.safe (h : e.Sound) : e.Safe where
  solvent := h.solvent
  once listingId := by
    rw [h.paidOnce]
    split
    · exact Nat.le_refl _
    · exact Nat.zero_le _
  parties p hp := by
    obtain ⟨hamount, hrecipient⟩ := h.paidTo p hp
    refine ⟨hamount, ?_⟩
    rw [hrecipient, Listing.payee]
    split
    · exact Or.inl rfl
    · exact Or.inr rfl
  exact listingId := by
    have honce := h.paidOnce listingId
    rw [← settled_iff, ← List.length_pos_iff, honce]
    split <;> simp_all

theorem Sound.leave (h : e.Sound) : e.leave.Sound :=
  ⟨h.solvent, h.counted, h.fresh, h.paidOnce, h.paidTo⟩

theorem call_eq_ok {c : EscrowMessage × Function} {pays : Bool} (h : call e c = .ok (e', pays)) :
    Change e e' c.2.lists := by
  simp only [call, Outcome.except_bind_eq_ok, pure, Except.pure, Except.ok.injEq,
    Prod.mk.injEq] at h
  obtain ⟨-, -, after, happly, rfl, -⟩ := h
  exact change_apply happly

theorem sound_deploy {owner arbitrator : Address} (h : deploy owner arbitrator = .ok e) : e.Sound := by
  simp only [deploy, Outcome.except_bind_eq_ok, pure, Except.pure, Except.ok.injEq] at h
  obtain ⟨-, -, -, -, rfl⟩ := h
  constructor
  · exact Nat.le_of_eq rfl
  · exact Nat.two_pow_pos 256
  · simp
  · simp [payoutsOf, listing, EscrowStatus.settled]
  · simp

/-- In order, and nothing lost of what was terminal in `base`. -/
def SoundSince (base e : DigitalEscrow) : Prop := e.Sound ∧ Kept base e

/-- **Any run keeps it, in the current state and in all that a revert can bring back.** -/
theorem soundSince_run {base : DigitalEscrow} {w : World} {events : List Event}
    (h : Frames.Everywhere (SoundSince base) w) (hids : Trace.Each step IdsLeft w events) :
    Frames.Everywhere (SoundSince base) (Trace.run step w events) := by
  refine Trace.run_induction_of_each h hids ?_
  intro w ev w' hinv hstep hleft
  refine hinv.step hstep ?_ ?_
  · intro s hs
    exact ⟨hs.1.leave, hs.2.trans fun _ _ => rfl⟩
  · intro c s' b hev hcall
    obtain ⟨hsound, hkept⟩ := hinv.state
    have hchange := call_eq_ok hcall
    have hroom := hleft c.1 c.2 hev
    exact ⟨hsound.change hchange hroom, hkept.trans (hsound.kept hchange hroom)⟩

/-- A step that undoes nothing keeps the terminal listings. -/
theorem kept_step {w : World} {ev : Event} (h : w.state.Sound)
    (hids : ∀ w', step w ev = .ok w' → IdsLeft w ev w') (hreturns : ev ≠ .finish false) :
    Kept w.state (Trace.after step w ev).state := by
  refine @Trace.after_induction _ _ _ step w ev (fun w' => Kept w.state w'.state) (Kept.refl _) ?_
  intro w' hstep
  refine Frames.state_step Kept.refl hstep hreturns (fun _ _ _ => rfl) ?_
  intro c s' b hev hcall
  exact h.kept (call_eq_ok hcall) (hids w' hstep c.1 c.2 hev)

/-- **From a new contract, through any calls by any accounts, re-entrant calls of recipients and reverts, as
long as `list` finds an id that was not given yet: at every point where control is outside the contract
the balance covers the listings whose price is held, and each listing has been paid out at most once,
to its own seller or buyer, and exactly when its status says so. A step leaves the terminal states as
they are unless it is a revert, and a revert never reaches back before the transaction.** -/
theorem escrow_safe (owner arbitrator : Address) (e : DigitalEscrow)
    (hdeploy : deploy owner arbitrator = .ok e) (events : List Event)
    (hids : Trace.Each step IdsLeft { state := e } events) (earlier : List Event)
    (hearlier : earlier <+: events) :
    (Trace.run step { state := e } earlier).state.Safe ∧
    (∀ ev, earlier ++ [ev] <+: events → ev ≠ .finish false →
      Kept (Trace.run step { state := e } earlier).state
        (Trace.run step { state := e } (earlier ++ [ev])).state) ∧
    ((Trace.run step { state := e } earlier).frames = [] →
      ∀ later, earlier <+: later → later <+: events →
        Kept (Trace.run step { state := e } earlier).state
          (Trace.run step { state := e } later).state) := by
  have hstart : Frames.Everywhere (SoundSince e) { state := e } :=
    ⟨⟨sound_deploy hdeploy, Kept.refl e⟩, by simp⟩
  have hids' : ∀ some : List Event, some <+: events → Trace.Each step IdsLeft { state := e } some := by
    rintro some ⟨rest, rfl⟩
    exact (Trace.each_append.mp hids).1
  have hsound := (soundSince_run hstart (hids' earlier hearlier)).state.1
  refine ⟨hsound.safe, ?_, ?_⟩
  · intro ev hev hreturns
    have heach := (Trace.each_append.mp (hids' _ hev)).2
    rw [Trace.run_append]
    exact kept_step hsound heach.1 hreturns
  · rintro hframes later ⟨rest, rfl⟩ hlater
    have heach := (Trace.each_append.mp (hids' _ hlater)).2
    rw [Trace.run_append]
    refine (soundSince_run ?_ heach).state.2
    exact ⟨⟨hsound, Kept.refl _⟩, by simp [hframes]⟩

/-! ## Listing on and on -/

/-- The state after `list`, where nothing is paused. -/
theorem run_list {w : World} {seller : Address} {itemHash price : Nat} {uri : String}
    (hpaused : w.state.paused = false) (hprice : price ≠ 0) :
    (Trace.after step w (.call ({ sender := seller }, .list itemHash uri price 0))).state =
      { w.state with listingCount := w.state.nextListingId }.setListing w.state.nextListingId
        { seller, itemHash, uri, price, lockWindow := defaultLockWindow, status := .listed } := by
  have hcall : w.state.call ({ sender := seller }, .list itemHash uri price 0) =
      .ok ({ w.state with listingCount := w.state.nextListingId }.setListing w.state.nextListingId
        { seller, itemHash, uri, price, lockWindow := defaultLockWindow, status := .listed }, false) := by
    simp [call, apply, list, require, hpaused, hprice, bind, Except.bind, pure, Except.pure,
      Function.pays]
  simp only [Trace.after, step, Frames.step, hcall]

/-- The counter goes round. -/
theorem run_replicate_list {w : World} {seller : Address} {itemHash price : Nat} {uri : String}
    (hpaused : w.state.paused = false) (hprice : price ≠ 0) (hcount : w.state.listingCount < 2 ^ 256)
    (n : Nat) :
    let w' := Trace.run step w (List.replicate n (.call ({ sender := seller }, .list itemHash uri price 0)))
    w'.state.paused = false ∧ w'.state.listingCount = (w.state.listingCount + n) % 2 ^ 256 := by
  induction n with
  | zero => exact ⟨hpaused, (Nat.mod_eq_of_lt hcount).symm⟩
  | succ n ih =>
    obtain ⟨hpaused', hcount'⟩ := ih
    simp only [List.replicate_succ', Trace.run_append, Trace.run_cons, Trace.run_nil]
    rw [run_list hpaused' hprice]
    refine ⟨hpaused', ?_⟩
    simp only [setListing, nextListingId, hcount', Nat.mod_add_mod]
    rfl

end DigitalEscrow

/-! ## A payment, a re-entrant seller, and an id that comes back -/

namespace EscrowSample

open DigitalEscrow

def escrow : DigitalEscrow := { owner := 9, arbitrator := 8 }

/-- The seller (1) lists something. -/
def offer : Event := .call ({ sender := 1 }, .list 0 "item" 5 0)

/-- It is sold to the buyer (2), who releases the price: control is with the seller now. -/
def sold : List Event :=
  [offer, .call ({ sender := 2, value := 5 }, .buy 1), .call ({ sender := 1 }, .accept 1),
    .call ({ sender := 2 }, .release 1)]

/-- The seller, being paid, calls for the price again, makes another offer, and returns. -/
def reentrant : List Event :=
  sold ++ [.call ({ sender := 1 }, .timeoutPayout 1), offer, .finish true]

def paidOnce : List Event := sold ++ [.finish true]

end EscrowSample

open EscrowSample DigitalEscrow in
theorem escrow_safe_reentrant : (Trace.run step { state := escrow } reentrant).state.Safe := by
  refine (escrow_safe 9 8 escrow rfl reentrant ?_ reentrant (List.prefix_refl _)).1
  refine ⟨?_, ?_, ?_, ?_, ?_, ?_, ?_, trivial⟩
  all_goals intro w' _ msg f hev hlists
  all_goals cases hev
  all_goals first | exact absurd hlists (by decide) | decide +kernel

open EscrowSample DigitalEscrow in
/-- After 2^256 more listings, the next offer takes the place of a listing that was paid out. -/
theorem wrapped_id_replaces_listing :
    deploy 9 8 = .ok escrow ∧
    ((Trace.run step { state := escrow } paidOnce).state.listing 1).status = .paidToSeller ∧
    (Trace.run step { state := escrow } paidOnce).frames = [] ∧
    ((Trace.run step { state := escrow } (paidOnce ++ List.replicate (2 ^ 256) offer)).state.listing
      1).status = .listed := by
  refine ⟨rfl, by decide +kernel, List.isEmpty_iff.mp (by decide +kernel), ?_⟩
  have hpaused : (Trace.run step { state := escrow } paidOnce).state.paused = false := by
    decide +kernel
  have hcount : (Trace.run step { state := escrow } paidOnce).state.listingCount = 1 := by
    decide +kernel
  rw [Trace.run_append]
  generalize Trace.run step { state := escrow } paidOnce = w at hpaused hcount
  obtain ⟨n, hn⟩ := Nat.exists_eq_succ_of_ne_zero (Nat.two_pow_pos 256).ne'
  have hround : ((1 + n) % 2 ^ 256 + 1) % 2 ^ 256 = 1 := by
    rw [Nat.mod_add_mod, Nat.add_assoc, ← Nat.succ_eq_add_one, ← hn, Nat.add_mod_right]
  have hrest := @run_replicate_list w 1 0 5 "item" hpaused (by decide)
    (hcount.trans_lt (Nat.one_lt_two_pow (by decide))) n
  rw [hn, List.replicate_succ', Trace.run_append, Trace.run_cons, Trace.run_nil, offer]
  rw [run_list hrest.1 (by decide), listing_insert rfl, if_pos]
  simp only [nextListingId, hrest.2, hcount, hround]

end Curs3d

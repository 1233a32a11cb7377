import Curs3d.Crypto.Reference
import Curs3d.Lib.Ledger
import Curs3d.Token

/-!
# CUR-20 balances are conserved

The credit of a transfer is an unchecked addition. It stays in range because the balances of a token
always add up to its supply, which is a 64-bit number: the debit has been written by the time the
credit is computed, so what is left and what is credited are parts of one total, also when the source
is the recipient. `Conserved` is that total for every token, with nothing recorded for a token that is
not deployed; one call keeps it (`Conserved.step`), and a run from the empty registry has it
(`cur20_conservation`).

An allowance is what is left of the last approval, so what a spender has moved since then is within
it (`spending_step`).
-/

set_option autoImplicit false

namespace Curs3d

open U64

/-- A call of the registry's interface. -/
inductive TokenCall where
  | deployToken (deployer : Bytes) (nonce : Nat) (params : DeployTokenParams) (height : Nat)
  | transfer (token source recipient : Bytes) (amount : Nat)
  | approve (token owner spender : Bytes) (amount : Nat)
  | transferFrom (token spender source recipient : Bytes) (amount : Nat)

/-- The supply is a `u64`. -/
def TokenCall.InRange : TokenCall → Prop
  | .deployToken _ _ params _ => params.totalSupply ≤ u64Max
  | _ => True

namespace TokenRegistry

variable (P : Primitives) (r : TokenRegistry)

def call : TokenCall → Except TokenError TokenRegistry
  | .deployToken deployer nonce params height => r.deployToken P deployer nonce params height
  | .transfer token source recipient amount => r.transfer token source recipient amount
  | .approve token owner spender amount => r.approve token owner spender amount
  | .transferFrom token spender source recipient amount =>
    r.transferFrom token spender source recipient amount

/-- The registry after a call, accepted or not. -/
def step (c : TokenCall) : TokenRegistry :=
  match r.call P c with
  | .ok r' => r'
  | .error _ => r

def run (calls : List TokenCall) : TokenRegistry := calls.foldl (step P) r

/-- The balances of `token` are those under a key that starts with it. -/
def ofToken (token : Bytes) (key : List Bytes) : Bool := key.head? = some token

def totalBalance (token : Bytes) : Nat := Ledger.totalOf (ofToken token) r.balances

/-- The recipient's balance that a transfer adds to, read after the debit. -/
def creditedBalance (token source recipient : Bytes) (amount : Nat) : Nat :=
  (r.balances.insert [token, source] (r.balanceOf token source - amount))[[token, recipient]]?.getD 0

/-- The addition a call makes to a balance does not overflow. -/
def AddsInRange : TokenCall → Prop
  | .transfer token source recipient amount =>
    r.creditedBalance token source recipient amount + amount ≤ u64Max
  | .transferFrom token _ source recipient amount =>
    r.creditedBalance token source recipient amount + amount ≤ u64Max
  | _ => True

/-! ## Spending under an approval -/

/-- What an owner approved last for a spender, and what the spender moved since then. -/
structure Spending where
  approved : Nat := 0
  moved : Nat := 0

def trackSpending (token owner spender : Bytes) (s : Spending) (c : TokenCall) : Spending :=
  match c, r.call P c with
  | .approve token' owner' spender' amount, .ok _ =>
    if [token', owner', spender'] = [token, owner, spender] then { approved := amount, moved := 0 }
    else s
  | .transferFrom token' spender' owner' _ amount, .ok _ =>
    if [token', owner', spender'] = [token, owner, spender] then
      { s with moved := s.moved + amount }
    else s
  | _, _ => s

/-- The spending over a run. -/
def spending (token owner spender : Bytes) : TokenRegistry → Spending → List TokenCall → Spending
  | _, s, [] => s
  | r, s, c :: rest =>
    spending token owner spender (r.step P c) (r.trackSpending P token owner spender s c) rest

/-! ## Conservation -/

structure Conserved (r : TokenRegistry) : Prop where
  supply : ∀ token info, r.tokens[token]? = some info →
    r.totalBalance token = info.totalSupply ∧ info.totalSupply ≤ u64Max
  undeployed : ∀ token, token ∉ r.tokens → ∀ key, ofToken token key → r.balances[key]? = none

variable {P : Primitives} {r r' : TokenRegistry}

theorem conserved_empty : Conserved {} where
  supply token info h := absurd h (by simp)
  undeployed token _ key _ := by simp

/-- Where a token is deployed, what is left after a debit and the amount are within the supply. -/
theorem Conserved.addsInRange (h : r.Conserved) {token source recipient : Bytes} {amount : Nat}
    (htoken : token ∈ r.tokens) (hamount : amount ≤ r.balanceOf token source) :
    r.creditedBalance token source recipient amount + amount ≤ u64Max := by
  obtain ⟨info, hinfo⟩ := Std.ExtTreeMap.mem_iff_isSome_getElem?.mp htoken |> Option.isSome_iff_exists.mp
  obtain ⟨htotal, hmax⟩ := h.supply token info hinfo
  have hdebit := @Ledger.totalOf_insert _ _ _ _ _ r.balances (ofToken token) [token, source]
    (r.balanceOf token source - amount)
  have hread := @Ledger.amount_le_totalOf _ _ _ _ _
    (r.balances.insert [token, source] (r.balanceOf token source - amount)) (ofToken token)
    [token, recipient] (by simp [ofToken])
  have hsource : Ledger.amount r.balances [token, source] = r.balanceOf token source := rfl
  have hcredited : Ledger.amount (r.balances.insert [token, source]
      (r.balanceOf token source - amount)) [token, recipient] =
        r.creditedBalance token source recipient amount := rfl
  have htoken' : ofToken token [token, source] = true := by simp [ofToken]
  have hsum : Ledger.totalOf (ofToken token) r.balances = info.totalSupply := htotal
  rw [if_pos htoken', if_pos htoken', hsource] at hdebit
  omega

/-- In range, the two writes are a move. -/
theorem moveBalance_eq (h : r.Conserved) {token source recipient : Bytes} {amount : Nat}
    (htoken : token ∈ r.tokens) (hamount : amount ≤ r.balanceOf token source) :
    r.moveBalance token source recipient (r.balanceOf token source) amount =
      { r with
        balances := Ledger.move r.balances [token, source] [token, recipient] amount } := by
  have hrange := @Conserved.addsInRange r h token source recipient amount htoken hamount
  have hadd : wrapAdd (r.creditedBalance token source recipient amount) amount =
      r.creditedBalance token source recipient amount + amount :=
    Nat.mod_eq_of_lt (Nat.lt_succ_of_le hrange)
  simp only [moveBalance, Ledger.move]
  rw [← show r.creditedBalance token source recipient amount = (r.balances.insert [token, source]
    (r.balanceOf token source - amount))[[token, recipient]]?.getD 0 from rfl, hadd]
  rfl

/-- A move within one token keeps every total. -/
theorem Conserved.move (h : r.Conserved) {token source recipient : Bytes} {amount : Nat}
    (htoken : token ∈ r.tokens) (hamount : amount ≤ r.balanceOf token source) :
    Conserved { r with
      balances := Ledger.move r.balances [token, source] [token, recipient] amount } := by
  constructor
  · intro other info hinfo
    obtain ⟨htotal, hmax⟩ := h.supply other info hinfo
    refine ⟨?_, hmax⟩
    have hmove := @Ledger.totalOf_move _ _ _ _ _ r.balances (ofToken other) [token, source]
      [token, recipient] amount hamount
    have hsame : ofToken other [token, source] = ofToken other [token, recipient] := rfl
    rw [hsame] at hmove
    exact (Nat.add_right_cancel hmove).trans htotal
  · intro other hother key hkey
    have hne : ∀ owner, [token, owner] ≠ key := by
      intro owner heq
      rw [← heq] at hkey
      have hkey : some token = some other := of_decide_eq_true hkey
      exact hother (Option.some.inj hkey ▸ htoken)
    simp only [Ledger.move, KeyMap.getElem?_insert_eq]
    rw [if_neg (hne recipient), if_neg (hne source)]
    exact h.undeployed other hother key hkey

theorem Conserved.deployToken (h : r.Conserved) {deployer : Bytes} {nonce height : Nat}
    {params : DeployTokenParams} (hrange : params.totalSupply ≤ u64Max)
    (hok : r.deployToken P deployer nonce params height = .ok r') : r'.Conserved := by
  simp only [TokenRegistry.deployToken] at hok
  split at hok
  · exact absurd hok (by simp)
  split at hok
  · exact absurd hok (by simp)
  split at hok
  · exact absurd hok (by simp)
  split at hok
  · exact absurd hok (by simp)
  split at hok
  · exact absurd hok (by simp)
  next hnew =>
  cases hok
  set address := tokenAddressFor P deployer nonce with haddress
  -- The one write is the deployer's balance of the new token, which nobody held before.
  have hwrite : ∀ other, Ledger.totalOf (ofToken other)
      (r.balances.insert [address, deployer] params.totalSupply) =
        if address = other then params.totalSupply else r.totalBalance other := by
    intro other
    have hinsert := @Ledger.totalOf_insert _ _ _ _ _ r.balances (ofToken other) [address, deployer]
      params.totalSupply
    by_cases heq : address = other
    · subst heq
      have hnone := h.undeployed address hnew
      have hzero : Ledger.totalOf (ofToken address) r.balances = 0 := Ledger.totalOf_eq_zero hnone
      have hkey : ofToken address [address, deployer] = true := by simp [ofToken]
      have hold : Ledger.amount r.balances [address, deployer] = 0 := by
        simp [Ledger.amount, hnone _ hkey]
      rw [if_pos hkey, if_pos hkey, hzero, hold] at hinsert
      rw [if_pos rfl]
      omega
    · have hkey : ¬ ofToken other [address, deployer] = true := by simp [ofToken, heq]
      rw [if_neg hkey, if_neg hkey] at hinsert
      rw [if_neg heq]
      exact hinsert
  constructor
  · intro other info hinfo
    rw [KeyMap.getElem?_insert_eq] at hinfo
    have htotal := hwrite other
    split at hinfo
    · next heq =>
      cases hinfo
      rw [if_pos heq] at htotal
      exact ⟨htotal, hrange⟩
    · next hne =>
      rw [if_neg hne] at htotal
      obtain ⟨hsupply, hmax⟩ := h.supply other info hinfo
      exact ⟨htotal.trans hsupply, hmax⟩
  · intro other hother key hkey
    have hother : other ∉ r.tokens.insert address _ := hother
    rw [Std.ExtTreeMap.mem_insert, not_or] at hother
    have hne : [address, deployer] ≠ key := by
      intro heq
      rw [← heq] at hkey
      have hkey : some address = some other := of_decide_eq_true hkey
      exact hother.1 (Std.LawfulEqCmp.compare_eq_iff_eq.mpr (Option.some.inj hkey))
    rw [KeyMap.getElem?_insert_eq, if_neg hne]
    exact h.undeployed other hother.2 key hkey

/-- What an accepted transfer does. -/
theorem transfer_ok {token source recipient : Bytes} {amount : Nat}
    (hok : r.transfer token source recipient amount = .ok r') :
    token ∈ r.tokens ∧ amount ≤ r.balanceOf token source ∧
      r' = r.moveBalance token source recipient (r.balanceOf token source) amount := by
  simp only [transfer] at hok
  split at hok
  · exact absurd hok (by simp)
  next htoken =>
  split at hok
  · exact absurd hok (by simp)
  split at hok
  · exact absurd hok (by simp)
  split at hok
  · exact absurd hok (by simp)
  next hamount =>
  cases hok
  exact ⟨not_not.mp htoken, Nat.not_lt.mp hamount, rfl⟩

theorem approve_ok {token owner spender : Bytes} {amount : Nat}
    (hok : r.approve token owner spender amount = .ok r') :
    r' = { r with allowances := r.allowances.insert [token, owner, spender] amount } := by
  simp only [approve] at hok
  split at hok
  · exact absurd hok (by simp)
  · cases hok
    rfl

theorem transferFrom_ok {token spender source recipient : Bytes} {amount : Nat}
    (hok : r.transferFrom token spender source recipient amount = .ok r') :
    token ∈ r.tokens ∧ amount ≤ r.allowance token source spender ∧
      amount ≤ r.balanceOf token source ∧
      r' = { r.moveBalance token source recipient (r.balanceOf token source) amount with
        allowances := r.allowances.insert [token, source, spender]
          (r.allowance token source spender - amount) } := by
  simp only [transferFrom] at hok
  split at hok
  · exact absurd hok (by simp)
  next htoken =>
  split at hok
  · exact absurd hok (by simp)
  split at hok
  · exact absurd hok (by simp)
  next hallowance =>
  split at hok
  · exact absurd hok (by simp)
  next hamount =>
  cases hok
  exact ⟨not_not.mp htoken, Nat.not_lt.mp hallowance, Nat.not_lt.mp hamount, rfl⟩

/-- **No accepted call adds past the range of a balance.** -/
theorem Conserved.addsInRange_call (h : r.Conserved) {c : TokenCall} (hok : r.call P c = .ok r') :
    r.AddsInRange c := by
  cases c with
  | deployToken deployer nonce params height => trivial
  | transfer token source recipient amount =>
    obtain ⟨htoken, hamount, -⟩ := transfer_ok hok
    exact h.addsInRange htoken hamount
  | approve token owner spender amount => trivial
  | transferFrom token spender source recipient amount =>
    obtain ⟨htoken, -, hamount, -⟩ := transferFrom_ok hok
    exact h.addsInRange htoken hamount

/-- **One call keeps every token's total at its supply.** -/
theorem Conserved.step (h : r.Conserved) {c : TokenCall} (hrange : c.InRange) :
    (r.step P c).Conserved := by
  simp only [TokenRegistry.step]
  split
  · next r' hok =>
    cases c with
    | deployToken deployer nonce params height => exact h.deployToken hrange hok
    | transfer token source recipient amount =>
      obtain ⟨htoken, hamount, rfl⟩ := transfer_ok hok
      rw [moveBalance_eq h htoken hamount]
      exact h.move htoken hamount
    | approve token owner spender amount =>
      rw [approve_ok hok]
      exact ⟨h.supply, h.undeployed⟩
    | transferFrom token spender source recipient amount =>
      obtain ⟨htoken, -, hamount, rfl⟩ := transferFrom_ok hok
      rw [moveBalance_eq h htoken hamount]
      have hmoved := @Conserved.move r h token source recipient amount htoken hamount
      exact ⟨hmoved.supply, hmoved.undeployed⟩
  · exact h

theorem Conserved.run (h : r.Conserved) {calls : List TokenCall}
    (hrange : ∀ c ∈ calls, c.InRange) : (r.run P calls).Conserved := by
  induction calls generalizing r with
  | nil => exact h
  | cons c rest ih =>
    exact ih (h.step (hrange c (by simp))) fun c' hc' => hrange c' (by simp [hc'])

/-! ## Allowances -/

theorem allowances_deployToken {deployer : Bytes} {nonce height : Nat} {params : DeployTokenParams}
    (hok : r.deployToken P deployer nonce params height = .ok r') :
    r'.allowances = r.allowances := by
  simp only [deployToken] at hok
  repeat' split at hok
  all_goals cases hok
  rfl

/-- **An allowance is what is left of the last approval.** -/
theorem spending_step {token owner spender : Bytes} {s : Spending} (c : TokenCall)
    (h : r.allowance token owner spender + s.moved = s.approved) :
    (r.step P c).allowance token owner spender +
        (r.trackSpending P token owner spender s c).moved =
      (r.trackSpending P token owner spender s c).approved := by
  simp only [TokenRegistry.step, trackSpending]
  cases hok : r.call P c with
  | error e => cases c <;> exact h
  | ok r' =>
    cases c with
    | deployToken deployer nonce params height =>
      simp only [allowance] at h ⊢
      rw [allowances_deployToken hok]
      exact h
    | transfer token' source recipient amount =>
      obtain ⟨-, -, rfl⟩ := transfer_ok hok
      exact h
    | approve token' owner' spender' amount =>
      rw [approve_ok hok]
      simp only [allowance, KeyMap.getElem?_insert_eq]
      split
      · simp
      · exact h
    | transferFrom token' spender' source recipient amount =>
      obtain ⟨-, hallowance, -, rfl⟩ := transferFrom_ok hok
      simp only [allowance, KeyMap.getElem?_insert_eq] at h hallowance ⊢
      split
      · next heq =>
        cases heq
        simp only [Option.getD_some]
        omega
      · exact h

theorem spending_run {token owner spender : Bytes} {s : Spending} {calls : List TokenCall}
    (h : r.allowance token owner spender + s.moved = s.approved) :
    (r.run P calls).allowance token owner spender +
        (spending P token owner spender r s calls).moved =
      (spending P token owner spender r s calls).approved := by
  induction calls generalizing r s with
  | nil => exact h
  | cons c rest ih => exact ih (spending_step c h)

/-- **Over any sequence of calls on an empty registry: the balances of each token add up to its supply;
no balance addition of an accepted call overflows; a refused call changes nothing; and what a
spender has moved since the owner's last approval is within it.** -/
theorem cur20_conservation (P : Primitives) (calls : List TokenCall)
    (hrange : ∀ c ∈ calls, c.InRange) :
    (∀ token info, (run P {} calls).tokens[token]? = some info →
      (run P {} calls).totalBalance token = info.totalSupply) ∧
    (∀ c r', (run P {} calls).call P c = .ok r' → (run P {} calls).AddsInRange c) ∧
    (∀ c e, (run P {} calls).call P c = .error e → (run P {} calls).step P c = run P {} calls) ∧
    ∀ token owner spender,
      (spending P token owner spender {} {} calls).moved ≤
        (spending P token owner spender {} {} calls).approved := by
  have hrun := @Conserved.run P {} conserved_empty calls hrange
  refine ⟨fun token info hinfo => (hrun.supply token info hinfo).1,
    fun c r' hok => hrun.addsInRange_call hok, ?_, ?_⟩
  · intro c e herr
    simp only [TokenRegistry.step]
    rw [herr]
  · intro token owner spender
    have hspent := @spending_run P {} token owner spender {} calls (by simp [allowance])
    omega

end TokenRegistry

namespace Cur20Sample

def params : DeployTokenParams := { name := [65], symbol := [65], decimals := 0, totalSupply := u64Max }

def token : Bytes := TokenRegistry.tokenAddressFor Reference.primitives [1] 0

/-- A token of the largest supply; its creator lets account 3 spend, which moves part of it to the
creator itself and part to account 2. -/
def calls : List TokenCall :=
  [.deployToken [1] 0 params 1, .approve token [1] [3] 10, .transferFrom token [3] [1] [1] 4,
    .transferFrom token [3] [1] [2] 6]

end Cur20Sample

open Cur20Sample TokenRegistry in
theorem cur20_conservation_sample :
    ((run Reference.primitives {} calls).tokens[token]?.map CUR20Token.totalSupply = some u64Max) ∧
      (run Reference.primitives {} calls).totalBalance token = u64Max ∧
      (spending Reference.primitives token [1] [3] {} {} calls).moved = 10 ∧
      (spending Reference.primitives token [1] [3] {} {} calls).moved ≤
        (spending Reference.primitives token [1] [3] {} {} calls).approved := by
  have hrange : ∀ c ∈ calls, c.InRange := by
    intro c hc
    simp only [calls, List.mem_cons, List.not_mem_nil, or_false] at hc
    rcases hc with rfl | rfl | rfl | rfl
    · exact Nat.le_refl u64Max
    · trivial
    · trivial
    · trivial
  obtain ⟨htotal, -, -, hspent⟩ := cur20_conservation Reference.primitives calls hrange
  have hdeployed : (run Reference.primitives {} calls).tokens[token]?.map CUR20Token.totalSupply =
      some u64Max := by
    decide +kernel
  have hmoved : (spending Reference.primitives token [1] [3] {} {} calls).moved = 10 := by
    decide +kernel
  obtain ⟨info, hinfo, hsupply⟩ := Option.map_eq_some_iff.mp hdeployed
  exact ⟨hdeployed, (htotal token info hinfo).trans hsupply, hmoved, hspent token [1] [3]⟩

end Curs3d

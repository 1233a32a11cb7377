import Curs3d.Proof.Conservation
import Curs3d.Vm.Metering

/-!
# What a contract call pays for

A module that imports a hook is metered operator by operator: the middleware announces each operator's
cost before control gets there, whatever the control flow, so a call pays for every execution
(`paid_meter`). A module without one is charged once for its text. It has no loops, so that covers a run which enters
each function at most once (`cost_le_static`), and no more: functions that call functions twice over execute
exponentially many operators for the price of their text (`repeated_calls_unpaid`).
-/

set_option autoImplicit false

namespace Curs3d

open Outcome

namespace Vm

open U64

/-! ## The middleware -/

/-- `feed` with a hook. -/
def fed (hook : Nat) (operator : Wasm.Operator OperatorClass) : List (Wasm.Operator OperatorClass) :=
  match operator with
  | .loop => .loop :: pushedCharge hook (satAdd GAS_WASM_CONTROL_OP GAS_WASM_LOOP_TICK)
  | other => pushedCharge hook (operatorGasCost (operatorClass other)) ++ [other]

theorem operatorGasCost_pos (c : OperatorClass) : 0 < operatorGasCost c := by
  cases c <;> simp [operatorGasCost, GAS_WASM_CONTROL_OP, GAS_WASM_CALL_OP, GAS_WASM_MEMORY_OP,
    GAS_WASM_NUMERIC_OP, GAS_WASM_DEFAULT_OP]

theorem feed_some (hook : Nat) (operator : Wasm.Operator OperatorClass) :
    feed (some hook) operator = some (fed hook operator) := by
  cases operator with
  | loop => rfl
  | leaf o => simp only [feed, fed, operatorGasCost_pos, if_true]
  | block => rfl
  | if_ => rfl
  | else_ => rfl
  | end_ => rfl

theorem operators_charge (hook value : Nat) (rest : Wasm.Code OperatorClass) :
    (Wasm.charge hook value rest).operators = pushedCharge hook value ++ rest.operators := rfl

theorem operators_meter (hook : Nat) (c tail : Wasm.Code OperatorClass) :
    (meter hook c tail).operators = c.operators.flatMap (fed hook) ++ tail.operators := by
  induction c generalizing tail with
  | nil => simp [meter, Wasm.Code.operators]
  | op own o rest ih =>
    simp [meter, Wasm.Code.operators, operators_charge, ih, fed, operatorClass]
  | block body rest ihb ihr =>
    simp [meter, Wasm.Code.operators, operators_charge, ihb, ihr, fed, operatorClass, operatorGasCost]
  | loop body rest ihb ihr =>
    simp [meter, Wasm.Code.operators, operators_charge, ihb, ihr, fed, operatorClass, operatorGasCost]
  | ifThen body rest ihb ihr =>
    simp [meter, Wasm.Code.operators, operators_charge, ihb, ihr, fed, operatorClass, operatorGasCost]
  | ifElse body other rest ihb iho ihr =>
    simp [meter, Wasm.Code.operators, operators_charge, ihb, iho, ihr, fed, operatorClass,
      operatorGasCost]

/-- **The middleware turns the operators of a function into those of `meterBody`.** -/
theorem operators_meterBody (hook : Nat) (body : Wasm.Code OperatorClass) :
    (meterBody hook body).operators ++ [Wasm.Operator.end_] =
      (body.operators ++ [Wasm.Operator.end_]).flatMap (fed hook) := by
  simp [meterBody, operators_meter, operators_charge, Wasm.Code.operators, fed, operatorClass,
    operatorGasCost]

/-- **Metered code announces every cost.** -/
theorem paid_meter {hook : Nat} {c tail : Wasm.Code OperatorClass} {q : Int}
    (htail : Wasm.Paid costs hook 0 tail q) : Wasm.Paid costs hook 0 (meter hook c tail) q := by
  have hend : Wasm.Paid costs hook 0
      (Wasm.charge hook GAS_WASM_CONTROL_OP (.nil : Wasm.Code OperatorClass)) costs.control :=
    .charge (.nil (by simp [costs]))
  have hcontrol : (costs.control : Int) ≤ 0 + (GAS_WASM_CONTROL_OP : Nat) := by simp [costs]
  induction c generalizing tail q with
  | nil => exact htail
  | op own o rest ih => exact .charge (.op (by simp [costs]) (ih htail))
  | block body rest ihb ihr => exact .charge (.block hcontrol (ihb hend) (ihr htail))
  | loop body rest ihb ihr =>
    refine .loop (le_refl 0) (.charge ((ihb hend).mono ?_)) (ihr htail)
    simp [costs, satAdd, GAS_WASM_CONTROL_OP, GAS_WASM_LOOP_TICK, u64Max]
  | ifThen body rest ihb ihr => exact .charge (.ifThen hcontrol (ihb hend) (ihr htail))
  | ifElse body other rest ihb iho ihr =>
    exact .charge (.ifElse hcontrol (ihb hend) (iho hend) (ihr htail))

theorem paid_meterBody (hook : Nat) (body : Wasm.Code OperatorClass) :
    Wasm.Paid costs hook 0 (meterBody hook body) costs.control :=
  paid_meter (.charge (.nil (by simp [costs])))

/-! ## Host functions -/

theorem consumeGas_eq_ok {gas gas' amount : Nat} :
    consumeGas gas amount = .ok gas' ↔ amount ≤ gas ∧ gas' = gas - amount := by
  simp only [consumeGas]
  split
  · simp
    omega
  · simp [eq_comm]
    omega

theorem charge_le {call : HostCall} {gas gas' : Nat} (h : call.charge gas = .ok gas') : gas' ≤ gas := by
  simp only [HostCall.charge] at h
  generalize call.charges = amounts at h
  induction amounts generalizing gas with
  | nil =>
    cases h
    exact le_refl _
  | cons amount amounts ih =>
    rw [List.foldlM_cons, except_bind_eq_ok] at h
    obtain ⟨mid, hmid, hrest⟩ := h
    obtain ⟨-, rfl⟩ := consumeGas_eq_ok.mp hmid
    exact (ih hrest).trans (Nat.sub_le _ _)

theorem charge_hook {amount gas gas' : Nat} {call : HostCall}
    (hcall : call = .consumeGas amount ∨ call = .loopTick amount) (h : call.charge gas = .ok gas') :
    gas' + amount = gas := by
  have hcharges : call.charges = [amount] := by
    rcases hcall with rfl | rfl <;> simp [HostCall.charges]
  simp only [HostCall.charge, hcharges, List.foldlM_cons, List.foldlM_nil, except_bind_eq_ok] at h
  obtain ⟨mid, hmid, hret⟩ := h
  obtain ⟨hle, rfl⟩ := consumeGas_eq_ok.mp hmid
  cases hret
  omega

/-- A name that is a hook's belongs to a hook. -/
theorem hook_of_name {call : HostCall}
    (h : call.name = ascii "loop_tick" ∨ call.name = ascii "consume_gas") :
    ∃ amount, call = .consumeGas amount ∨ call = .loopTick amount := by
  cases call with
  | consumeGas amount => exact ⟨amount, Or.inl rfl⟩
  | loopTick amount => exact ⟨amount, Or.inr rfl⟩
  | _ =>
    simp only [HostCall.name] at h
    exact absurd h (by decide)

/-! ## The hook -/

theorem fuelHookFrom_eq_some {i h : Nat} {fallback : Option Nat} {imports : List (Text × Text)}
    (hook : fuelHookFrom i fallback imports = some h) :
    fallback = some h ∨ ∃ k, h = i + k ∧ (imports[k]? = some (ascii "curs3d", ascii "loop_tick") ∨
      imports[k]? = some (ascii "curs3d", ascii "consume_gas")) := by
  induction imports generalizing i fallback with
  | nil => exact Or.inl hook
  | cons imported rest ih =>
    simp only [fuelHookFrom] at hook
    split at hook
    · next htick =>
      cases hook
      exact Or.inr ⟨0, rfl, Or.inl (by simp [htick])⟩
    · rcases ih hook with hfallback | ⟨k, rfl, hk⟩
      · split at hfallback
        · next hconsume =>
          cases hfallback
          exact Or.inr ⟨0, rfl, Or.inr (by simp [hconsume])⟩
        · exact Or.inl hfallback
      · exact Or.inr ⟨k + 1, by omega, by simpa using hk⟩

theorem isSome_fuelHookFrom {i : Nat} {fallback : Option Nat} {imports : List (Text × Text)} :
    (fuelHookFrom i fallback imports).isSome = (fallback.isSome || imports.any fun imported =>
      imported = (ascii "curs3d", ascii "loop_tick") ∨
        imported = (ascii "curs3d", ascii "consume_gas")) := by
  induction imports generalizing i fallback with
  | nil => simp [fuelHookFrom]
  | cons imported rest ih =>
    simp only [fuelHookFrom, List.any_cons]
    split
    · next htick => simp [htick]
    · next htick =>
      rw [ih]
      split
      · next hconsume => simp [hconsume]
      · next hconsume => simp [htick, hconsume]

theorem hook_lt_of_some {imports : List (Text × Text)} {hook : Nat}
    (h : fuelHookFunctionIndex imports = some hook) :
    hook < imports.length ∧ (imports[hook]? = some (ascii "curs3d", ascii "loop_tick") ∨
      imports[hook]? = some (ascii "curs3d", ascii "consume_gas")) := by
  rcases fuelHookFrom_eq_some h with hnone | ⟨k, hk, hname⟩
  · exact absurd hnone (by simp)
  · rw [Nat.zero_add] at hk
    rw [hk]
    refine ⟨?_, hname⟩
    rcases hname with hname | hname
    · exact (List.getElem?_eq_some_iff.mp hname).1
    · exact (List.getElem?_eq_some_iff.mp hname).1

section Machine

variable {σ : Type} {D : WasmData σ} {imports : List (Text × Text)}

theorem machine_le {f : Nat} {s s' : σ} {gas gas' : Nat}
    (h : (D.machine imports).host f s gas s' gas') : gas' ≤ gas := by
  obtain ⟨call, -, -, hcharge⟩ := h
  exact charge_le hcharge

/-- The hook charges the constant just pushed. -/
theorem machine_hook {hook : Nat} (hhook : fuelHookFunctionIndex imports = some hook) {v : Nat}
    {s s' : σ} {gas gas' : Nat}
    (h : (D.machine imports).host hook ((D.machine imports).const (v : Int) s) gas s' gas') :
    gas' + v = gas := by
  obtain ⟨call, hname, hdata, hcharge⟩ := h
  obtain ⟨-, hnames⟩ := hook_lt_of_some hhook
  rw [hname] at hnames
  obtain ⟨amount, hcall⟩ := @hook_of_name call (by
    rcases hnames with hname | hname
    · exact Or.inl (congrArg Prod.snd (Option.some.inj hname))
    · exact Or.inr (congrArg Prod.snd (Option.some.inj hname)))
  rcases hcall with rfl | rfl
  · obtain rfl := D.consumeGas_const _ _ _ _ hdata
    exact charge_hook (Or.inl rfl) hcharge
  · obtain rfl := D.loopTick_const _ _ _ _ hdata
    exact charge_hook (Or.inr rfl) hcharge

end Machine

/-! ## Calls -/

section Calls

variable {σ : Type} {D : WasmData σ} {M : WasmModule} {gas gas' : Nat} {x : Executed}

theorem executes_le (h : Executes D M gas gas' x) : gas' ≤ gas := by
  obtain ⟨s, s₁, s₂, gas₁, started, called, hstart, hcall, -⟩ := h
  have hafter := hcall.meter_le fun _ _ _ _ _ => machine_le
  refine hafter.trans ?_
  cases hf : M.start with
  | none =>
    rw [hf] at hstart
    exact le_of_eq hstart.2
  | some f =>
    rw [hf] at hstart
    exact Wasm.Runs.meter_le (fun _ _ _ _ _ => machine_le) hstart

/-- **A module with a hook pays for every operator it executes.** -/
theorem cost_le_metered {hook : Nat} (hhook : fuelHookFunctionIndex M.imports = some hook)
    (h : Executes D M gas gas' x) : x.cost + gas' ≤ gas := by
  have hfunctions : ∀ body ∈ M.compiled.functions, Wasm.Paid costs hook 0 body costs.control := by
    intro body hbody
    simp only [WasmModule.compiled, hhook] at hbody
    obtain ⟨original, -, rfl⟩ := List.mem_map.mp hbody
    exact paid_meterBody hook original
  have hpays : ∀ {f : Nat} {s s' : σ} {g g' cost : Nat} {entered : List Nat},
      Wasm.Runs (D.machine M.imports) M.compiled costs (.function f) s g .fall s' g' cost entered →
        cost + g' ≤ g := by
    intro f s s' g g' cost entered hrun
    have hle := hrun.le_of_ready hfunctions (hook_lt_of_some hhook).1 (fun _ _ _ _ _ => machine_hook hhook)
      (fun _ _ _ _ _ => machine_le) .function
    simp only [Wasm.unspent] at hle
    omega
  obtain ⟨s, s₁, s₂, gas₁, started, called, hstart, hcall, rfl⟩ := h
  have hafter := hpays hcall
  cases hf : M.start with
  | none =>
    rw [hf] at hstart
    obtain ⟨rfl, rfl⟩ := hstart
    dsimp only
    omega
  | some f =>
    rw [hf] at hstart
    have hbefore := hpays hstart
    dsimp only
    omega

/-! ## The text of a module -/

/-- What the operators cost, each counted once. -/
def operatorsCost (operators : List (Wasm.Operator OperatorClass)) : Nat :=
  (operators.map fun operator => operatorGasCost (operatorClass operator)).sum

@[simp] theorem operatorsCost_nil : operatorsCost [] = 0 := rfl

@[simp] theorem operatorsCost_cons (operator : Wasm.Operator OperatorClass)
    (operators : List (Wasm.Operator OperatorClass)) :
    operatorsCost (operator :: operators) =
      operatorGasCost (operatorClass operator) + operatorsCost operators := rfl

@[simp] theorem operatorsCost_append (xs ys : List (Wasm.Operator OperatorClass)) :
    operatorsCost (xs ++ ys) = operatorsCost xs + operatorsCost ys := by
  simp [operatorsCost]

/-- The cost of the operators of a module. -/
def textCost (M : WasmModule) : Nat := operatorsCost M.operators

theorem control_eq : costs.control = GAS_WASM_CONTROL_OP := rfl

theorem operatorCost_block : operatorGasCost (operatorClass .block) = GAS_WASM_CONTROL_OP := rfl

theorem operatorCost_loop : operatorGasCost (operatorClass .loop) = GAS_WASM_CONTROL_OP := rfl

theorem operatorCost_if : operatorGasCost (operatorClass .if_) = GAS_WASM_CONTROL_OP := rfl

theorem operatorCost_else : operatorGasCost (operatorClass .else_) = GAS_WASM_CONTROL_OP := rfl

theorem operatorCost_end : operatorGasCost (operatorClass .end_) = GAS_WASM_CONTROL_OP := rfl

theorem staticCost_eq {c : Wasm.Code OperatorClass} (h : c.allOwn = true) :
    Wasm.staticCost costs c = operatorsCost c.operators := by
  induction c with
  | nil => rfl
  | op own o rest ih =>
    simp only [Wasm.Code.allOwn, Bool.and_eq_true] at h
    obtain ⟨rfl, hrest⟩ := h
    simp only [Wasm.staticCost, Wasm.Code.operators, operatorsCost_cons, ih hrest]
    rfl
  | block body rest ihb ihr =>
    simp only [Wasm.Code.allOwn, Bool.and_eq_true] at h
    simp only [Wasm.staticCost, Wasm.Code.operators, operatorsCost_cons, operatorsCost_append, ihb h.1,
      ihr h.2, control_eq, operatorCost_block, operatorCost_end]
    omega
  | loop body rest ihb ihr =>
    simp only [Wasm.Code.allOwn, Bool.and_eq_true] at h
    simp only [Wasm.staticCost, Wasm.Code.operators, operatorsCost_cons, operatorsCost_append, ihb h.1,
      ihr h.2, control_eq, operatorCost_loop, operatorCost_end]
    omega
  | ifThen body rest ihb ihr =>
    simp only [Wasm.Code.allOwn, Bool.and_eq_true] at h
    simp only [Wasm.staticCost, Wasm.Code.operators, operatorsCost_cons, operatorsCost_append, ihb h.1,
      ihr h.2, control_eq, operatorCost_if, operatorCost_end]
    omega
  | ifElse body other rest ihb iho ihr =>
    simp only [Wasm.Code.allOwn, Bool.and_eq_true] at h
    simp only [Wasm.staticCost, Wasm.Code.operators, operatorsCost_cons, operatorsCost_append, ihb h.1.1,
      iho h.1.2, ihr h.2, control_eq, operatorCost_if, operatorCost_else, operatorCost_end]
    omega

/-- The functions' costs add up to that of the text. -/
theorem sum_functionCost (functions : List (Wasm.Code OperatorClass))
    (hown : ∀ body ∈ functions, body.allOwn = true) (hosts : Nat) :
    ((List.range functions.length).map (Wasm.functionCost costs ⟨hosts, functions⟩)).sum =
      operatorsCost (functions.flatMap fun body => body.operators ++ [Wasm.Operator.end_]) := by
  have hmap : (List.range functions.length).map (Wasm.functionCost costs ⟨hosts, functions⟩) =
      functions.map fun body => Wasm.staticCost costs body + costs.control := by
    apply List.ext_getElem
    · simp
    · intro i hi hi'
      simp only [List.length_map, List.length_range] at hi
      simp [Wasm.functionCost, hi]
  rw [hmap]
  clear hmap
  induction functions with
  | nil => rfl
  | cons body rest ih =>
    rw [List.map_cons, List.sum_cons, ih fun b hb => hown b (List.mem_cons_of_mem _ hb),
      staticCost_eq (hown body (by simp)), List.flatMap_cons, operatorsCost_append, operatorsCost_append]
    rfl

/-- Entering each function at most once costs no more than all functions. -/
theorem sum_entered_le {f : Nat → Nat} {n : Nat} {entered : List Nat} (hnodup : entered.Nodup)
    (hzero : ∀ i, n ≤ i → f i = 0) : (entered.map f).sum ≤ ((List.range n).map f).sum := by
  rw [← List.sum_toFinset f hnodup, ← List.sum_toFinset f List.nodup_range]
  have hsub : ∑ i ∈ entered.toFinset, f i = ∑ i ∈ entered.toFinset.filter (· < n), f i := by
    symm
    apply Finset.sum_subset (Finset.filter_subset _ _)
    intro i hi hnot
    apply hzero
    by_contra hlt
    exact hnot (Finset.mem_filter.mpr ⟨hi, Nat.not_le.mp hlt⟩)
  rw [hsub]
  apply Finset.sum_le_sum_of_subset
  intro i hi
  simpa using (Finset.mem_filter.mp hi).2

/-- **A module without a hook costs at most its text, if it enters no function twice.** -/
theorem cost_le_static (hhook : fuelHookFunctionIndex M.imports = none)
    (hloops : ∀ body ∈ M.functions, body.loopFree = true)
    (hown : ∀ body ∈ M.functions, body.allOwn = true) (h : Executes D M gas gas' x)
    (hnodup : x.entered.Nodup) : x.cost ≤ textCost M := by
  have hcompiled : M.compiled = ⟨M.imports.length, M.functions⟩ := by
    simp only [WasmModule.compiled, hhook]
  have hstatic : ∀ {f : Nat} {s s' : σ} {g g' cost : Nat} {entered : List Nat},
      Wasm.Runs (D.machine M.imports) M.compiled costs (.function f) s g .fall s' g' cost entered →
        cost ≤ (entered.map (Wasm.functionCost costs M.compiled)).sum := by
    intro f s s' g g' cost entered hrun
    have hle := hrun.le_static (by rw [hcompiled]; exact hloops) rfl
    simpa [Wasm.targetCost] using hle
  have hcost : x.cost ≤ (x.entered.map (Wasm.functionCost costs M.compiled)).sum := by
    obtain ⟨s, s₁, s₂, gas₁, started, called, hstart, hcall, rfl⟩ := h
    have hafter := hstatic hcall
    rw [List.map_append, List.sum_append]
    cases hf : M.start with
    | none =>
      rw [hf] at hstart
      obtain ⟨rfl, rfl⟩ := hstart
      simpa using hafter
    | some f =>
      rw [hf] at hstart
      exact Nat.add_le_add (hstatic hstart) hafter
  refine hcost.trans ((sum_entered_le hnodup (n := M.functions.length) ?_).trans (le_of_eq ?_))
  · intro i hi
    simp [Wasm.functionCost, hcompiled, List.getElem?_eq_none hi]
  · rw [hcompiled]
    exact sum_functionCost M.functions hown M.imports.length

end Calls

/-! ## The receipt -/

section Receipts

variable {P : Primitives} {M : WasmModule} {contract contract' : ContractState}
  {address data caller : Bytes} {limit : Nat} {receipt : Receipt}

/-- Below the top the estimate is the sum. -/
theorem foldl_satAdd_lt {cost : OperatorClass → Nat} {ops : List OperatorClass} {total : Nat}
    (h : ops.foldl (fun total op => satAdd total (cost op)) total < u64Max) :
    ops.foldl (fun total op => satAdd total (cost op)) total = total + (ops.map cost).sum := by
  induction ops generalizing total with
  | nil => simp
  | cons op ops ih =>
    rw [List.foldl_cons] at h ⊢
    have hstep := ih h
    have hlt : satAdd total (cost op) < u64Max := by omega
    rw [hstep, satAdd_eq_add_of_lt hlt, List.map_cons, List.sum_cons]
    omega

theorem estimateWasmGas_eq {gas : Nat} (hstored : isWat contract.code = false)
    (hM : M.Describes P contract.code) (h : estimateWasmGas P contract.code = .ok gas)
    (hlt : gas < u64Max) : gas = textCost M := by
  simp only [estimateWasmGas, hstored, hM.operators, Bool.false_eq_true, if_false, Except.ok.injEq] at h
  rw [← h] at hlt ⊢
  rw [foldl_satAdd_lt hlt, List.map_map, Nat.zero_add]
  rfl

/-- A module in which the scan finds no loop has none. -/
theorem loopFree_of_scan {code : Bytes} (hM : M.Describes P code)
    (h : moduleContainsLoops P code = .ok false) : ∀ body ∈ M.functions, body.loopFree = true := by
  intro body hbody
  by_contra hloop
  rw [Bool.not_eq_true] at hloop
  have hmem : Wasm.Operator.loop ∈ M.operators :=
    List.mem_flatMap.mpr ⟨body, hbody, List.mem_append_left _ (Wasm.Code.loop_mem_operators hloop)⟩
  have hany : (M.operators.map operatorClass).any (fun op => op = .control true) = true := by
    apply List.any_eq_true.mpr
    exact ⟨.control true, List.mem_map.mpr ⟨_, hmem, rfl⟩, by simp⟩
  simp only [moduleContainsLoops, hM.operators, hany, if_true] at h
  cases h

theorem compileModule_eq_ok {code : Bytes} {result : Bytes × Bool} (hstored : isWat code = false)
    (hM : M.Describes P code) (h : compileModule P code = .ok result) :
    result = (code, (fuelHookFunctionIndex M.imports).isSome) ∧
      (fuelHookFunctionIndex M.imports = none → ∀ body ∈ M.functions, body.loopFree = true) := by
  simp only [compileModule, except_bind_eq_ok] at h
  obtain ⟨bytes, hbytes, hooked, hhooked, h⟩ := h
  simp only [normalizeModuleBytes, hstored, Bool.false_eq_true, if_false, Except.ok.injEq] at hbytes
  subst hbytes
  simp only [hasFuelHook, hM.imports, Except.ok.injEq] at hhooked
  have hindex : (fuelHookFunctionIndex M.imports).isSome = hooked := by
    rw [← hhooked, fuelHookFunctionIndex, isSome_fuelHookFrom, Option.isSome_none, Bool.false_or]
  rw [hindex]
  cases hooked with
  | true =>
    simp only [Bool.not_true, Bool.false_eq_true, if_false] at h
    split at h
    · cases h
      refine ⟨rfl, ?_⟩
      intro hnone
      rw [hnone] at hindex
      cases hindex
    · cases h
  | false =>
    simp only [Bool.not_false, if_true, except_bind_eq_ok] at h
    obtain ⟨loops, hloops, h⟩ := h
    cases loops with
    | true => cases h
    | false =>
      simp only [Bool.false_eq_true, if_false] at h
      split at h
      · cases h
        exact ⟨rfl, fun _ => loopFree_of_scan hM hloops⟩
      · cases h

/-- What a call that returns a receipt did: it charged for the payload and, without a hook, for the text, and the
engine ran from what was left. -/
theorem call_eq_ok
    (h : call P contract address data caller limit = .ok (contract', receipt)) :
    ∃ gasNeeded wasmBytes hooked ctx' ret, chargedBefore P contract data = .ok gasNeeded ∧
      gasNeeded ≤ limit ∧ compileModule P contract.code = .ok (wasmBytes, hooked) ∧
      P.wasmRun wasmBytes (startContext contract address data caller (limit - gasNeeded)) =
        .ok (ctx', ret) ∧
      receipt.gasUsed = limit - ctx'.gasRemaining := by
  simp only [call, except_bind_eq_ok] at h
  obtain ⟨static, hstatic, ⟨wasmBytes, hooked⟩, hcompile, gasNeeded, hneeded, h⟩ := h
  dsimp only at h hneeded
  split at h
  · exact absurd h (by simp [bind, Except.bind, throw, throwThe, MonadExceptOf.throw])
  next hle =>
  obtain ⟨⟨ctx', ret⟩, hrun, h⟩ := except_bind_eq_ok.mp h
  cases h
  refine ⟨gasNeeded, wasmBytes, hooked, ctx', ret, ?_, Nat.le_of_not_lt hle, hcompile, hrun, rfl⟩
  simp only [chargedBefore, except_bind_eq_ok]
  exact ⟨static, hstatic, _, hcompile, hneeded⟩

/-- The text of a module without a hook is charged before the engine starts. -/
theorem textCost_le_charged {gasNeeded : Nat} (hstored : isWat contract.code = false)
    (hM : M.Describes P contract.code) (hhook : fuelHookFunctionIndex M.imports = none)
    (h : chargedBefore P contract data = .ok gasNeeded) : textCost M ≤ gasNeeded := by
  simp only [chargedBefore, except_bind_eq_ok] at h
  obtain ⟨static, hstatic, result, hcompile, hneeded⟩ := h
  obtain ⟨rfl, -⟩ := compileModule_eq_ok hstored hM hcompile
  simp only [hhook, callGasNeeded, Option.isSome_none, Bool.false_eq_true, if_false,
    except_bind_eq_ok] at hneeded
  obtain ⟨payload, -, intrinsic, hintrinsic, hadd⟩ := hneeded
  simp only [checkedAdd] at hintrinsic hadd
  split at hintrinsic
  · cases hintrinsic
    split at hadd
    · next hmax =>
      cases hadd
      have hpos : 0 < GAS_BASE_TX + GAS_CALL := by decide
      rw [← estimateWasmGas_eq hstored hM hstatic (by omega)]
      exact Nat.le_add_left _ _
    · cases hadd
  · cases hintrinsic

/-- The engine runs the compiled module by the semantics of WASM; `executed` says what each run executes. -/
def RunsModule {σ : Type} (P : Primitives) (D : WasmData σ) (M : WasmModule) (code : Bytes)
    (executed : VmExecutionContext → Executed) : Prop :=
  ∀ ctx ctx' ret, P.wasmRun code ctx = .ok (ctx', ret) →
    Executes D M ctx.gasRemaining ctx'.gasRemaining (executed ctx)

/-- **A call stays within its limit, and it pays for what it executes if the module imports a hook or the call
enters no function twice.** -/
theorem call_paid_of_hook_or_once {σ : Type} {D : WasmData σ} {executed : VmExecutionContext → Executed}
    (hstored : isWat contract.code = false) (hM : M.Describes P contract.code)
    (hengine : RunsModule P D M contract.code executed)
    (h : call P contract address data caller limit = .ok (contract', receipt)) :
    receipt.gasUsed ≤ limit ∧
      ∃ gasNeeded, chargedBefore P contract data = .ok gasNeeded ∧ gasNeeded ≤ limit ∧
        ((fuelHookFunctionIndex M.imports).isSome ∨
            (executed (startContext contract address data caller (limit - gasNeeded))).entered.Nodup →
          (executed (startContext contract address data caller (limit - gasNeeded))).cost ≤
            receipt.gasUsed) := by
  obtain ⟨gasNeeded, wasmBytes, hooked, ctx', ret, hcharged, hle, hcompile, hrun, hused⟩ := call_eq_ok h
  obtain ⟨hbytes, hloops⟩ := compileModule_eq_ok hstored hM hcompile
  cases hbytes
  have hexec := hengine _ _ _ hrun
  have hgas : ctx'.gasRemaining ≤ limit - gasNeeded := executes_le hexec
  refine ⟨by omega, gasNeeded, hcharged, hle, ?_⟩
  intro hcond
  cases hhook : fuelHookFunctionIndex M.imports with
  | some hook =>
    -- the engine took the cost from what was left
    have hpaid : _ ≤ limit - gasNeeded := cost_le_metered hhook hexec
    omega
  | none =>
    -- the text was charged before the engine started
    have hnodup := hcond.resolve_left (by simp [hhook])
    have hcost := cost_le_static hhook (hloops hhook) hM.own hexec hnodup
    have htext := textCost_le_charged hstored hM hhook hcharged
    omega

theorem normalize_of_compile {code wasm : Bytes} {hooked : Bool}
    (h : compileModule P code = .ok (wasm, hooked)) : normalizeModuleBytes P code = .ok wasm := by
  simp only [compileModule, except_bind_eq_ok] at h
  obtain ⟨bytes, hbytes, found, -, h⟩ := h
  have hguard : (if P.wasmModuleOk bytes then pure (bytes, found) else throw VmError.invalidWasm :
      Except VmError (Bytes × Bool)) = .ok (wasm, hooked) → bytes = wasm := by
    intro hok
    split at hok
    · cases hok
      rfl
    · cases hok
  cases found with
  | true =>
    rw [← hguard h]
    exact hbytes
  | false =>
    simp only [Bool.not_false, if_true, except_bind_eq_ok] at h
    obtain ⟨loops, -, h⟩ := h
    cases loops with
    | true => cases h
    | false =>
      rw [← hguard h]
      exact hbytes

/-- The code of a deployed contract is no text, since the assembler returns none. -/
theorem isWat_of_deploy {code deployer : Bytes} {nonce height : Nat}
    (hasm : ∀ text wasm, P.wat2wasm text = some wasm → isWat wasm = false)
    (h : deploy P code deployer nonce limit height = .ok (contract, receipt)) :
    isWat contract.code = false := by
  simp only [deploy] at h
  split at h
  · exact absurd h (by simp [bind, Except.bind, throw, throwThe, MonadExceptOf.throw])
  simp only [except_bind_eq_ok] at h
  obtain ⟨⟨wasm, hooked⟩, hcompile, _, -, needed, -, h⟩ := h
  dsimp only at h
  split at h
  · exact absurd h (by simp [bind, Except.bind, throw, throwThe, MonadExceptOf.throw])
  cases h
  have hbytes : normalizeModuleBytes P code = .ok wasm := normalize_of_compile hcompile
  simp only [normalizeModuleBytes] at hbytes
  split at hbytes
  · split at hbytes
    · next hwat =>
      cases hbytes
      exact hasm _ _ hwat
    · cases hbytes
  · next hcode =>
    cases hbytes
    exact (Bool.not_eq_true _).mp hcode

end Receipts

/-! ## A metered call -/

namespace MeteredSample

/-- A hook, and one function of one numeric operator. -/
def module : WasmModule where
  imports := [(ascii "curs3d", ascii "loop_tick")]
  functions := [.op true (.simple .numeric) .nil]
  start := none
  entry := 1

/-- The data is the last constant pushed, and the hook takes it. -/
def data : WasmData Int where
  const v _ := v
  host call s s' := call = .loopTick s ∧ s' = s
  consumeGas_const := by
    rintro v s amount s' ⟨hcall, -⟩
    cases hcall
  loopTick_const := by
    rintro v s amount s' ⟨hcall, -⟩
    cases hcall
    rfl

/-- An engine that runs the module: it charges for the numeric operator and for the end. -/
def primitives : Primitives :=
  { Reference.primitives with
    wasmOperators := fun _ => (module.operators.map operatorClass, true)
    wasmFunctionImports := fun _ => some module.imports
    wasmModuleOk := fun _ => true
    wasmRun := fun _ ctx =>
      if ctx.gasRemaining < 7 then .error .execution
      else .ok ({ ctx with gasRemaining := ctx.gasRemaining - 7 }, []) }

def contract : ContractState where
  codeHash := []
  code := [0]
  storage := ∅
  owner := []

theorem host_loopTick {v gas : Nat} (s : Int) (h : v ≤ gas) :
    (data.machine module.imports).host 0 (data.const (v : Int) s) gas (v : Int) (gas - v) := by
  refine ⟨.loopTick v, rfl, ⟨rfl, rfl⟩, ?_⟩
  simp [HostCall.charge, HostCall.charges, consumeGas, Nat.not_lt.mpr h]

theorem executes {gas : Nat} (h : 7 ≤ gas) : Executes data module gas (gas - 7) ⟨7, [0]⟩ := by
  have hend : Wasm.Runs (data.machine module.imports) module.compiled costs
      (.code (Wasm.charge 0 GAS_WASM_CONTROL_OP .nil)) (3 : Int) (gas - 3) .fall 4 (gas - 3 - 4) 0 [] :=
    .charge (by decide) (@host_loopTick 4 _ 3 (by omega)) .nil
  have hop : Wasm.Runs (data.machine module.imports) module.compiled costs
      (.code (.op true (.simple .numeric) (Wasm.charge 0 GAS_WASM_CONTROL_OP .nil))) (3 : Int) (gas - 3)
      .fall 4 (gas - 3 - 4) 3 [] :=
    .pass (by trivial) hend
  have hbody : Wasm.Runs (data.machine module.imports) module.compiled costs
      (.code (meterBody 0 (.op true (.simple .numeric) .nil))) (0 : Int) gas .fall 4 (gas - 3 - 4) 3 [] :=
    .charge (by decide) (@host_loopTick 3 _ 0 (by omega)) hop
  have hcall : Wasm.Runs (data.machine module.imports) module.compiled costs
      (.function (module.compiled.hosts + 0)) (0 : Int) gas .fall 0 (gas - 3 - 4) (3 + 4) [0] :=
    Wasm.Runs.function (i := 0) (by rfl) hbody (Or.inl rfl)
  exact ⟨0, 0, 0, gas, ⟨0, []⟩, ⟨7, [0]⟩, ⟨rfl, rfl⟩, hcall, rfl⟩

theorem runsModule : RunsModule primitives data module contract.code fun _ => ⟨7, [0]⟩ := by
  intro ctx ctx' ret h
  simp only [primitives] at h
  split at h
  · cases h
  · next hgas =>
    cases h
    exact executes (Nat.not_lt.mp hgas)

theorem describes : module.Describes primitives contract.code where
  operators := rfl
  imports := rfl
  own := by decide

theorem called :
    (call primitives contract [] [] [] 100000).toOption.any (fun _ => true) = true := by
  decide +kernel

end MeteredSample

/-- A metered call of one operator. -/
theorem call_paid_metered_sample :
    ∃ contract' receipt, call MeteredSample.primitives MeteredSample.contract [] [] [] 100000 =
        .ok (contract', receipt) ∧
      receipt.gasUsed ≤ 100000 ∧ 7 ≤ receipt.gasUsed := by
  obtain ⟨⟨contract', receipt⟩, hcall, -⟩ := ok_of_any MeteredSample.called
  obtain ⟨hle, gasNeeded, -, -, hpaid⟩ := call_paid_of_hook_or_once (by decide)
    MeteredSample.describes MeteredSample.runsModule hcall
  exact ⟨contract', receipt, hcall, hle, hpaid (Or.inl (by decide))⟩

/-! ## Repeated calls -/

namespace RepeatedSample

/-- The function with index `i` calls the next one twice. -/
def twice (i : Nat) : Wasm.Code OperatorClass :=
  .op true (.call (i + 1)) (.op true (.call (i + 1)) .nil)

/-- Ten functions that call the next one twice, and an empty one. -/
def module : WasmModule where
  imports := []
  functions := (List.range 10).map twice ++ [.nil]
  start := none
  entry := 0

def data : WasmData Unit where
  const _ s := s
  host _ _ _ := False
  consumeGas_const := by
    intro v s amount s' h
    exact h.elim
  loopTick_const := by
    intro v s amount s' h
    exact h.elim

/-- No host function is called, so the engine leaves the context as it was. -/
def primitives : Primitives :=
  { Reference.primitives with
    wasmOperators := fun _ => (module.operators.map operatorClass, true)
    wasmFunctionImports := fun _ => some module.imports
    wasmModuleOk := fun _ => true
    wasmRun := fun _ ctx => .ok (ctx, []) }

def contract : ContractState where
  codeHash := []
  code := [0]
  storage := ∅
  owner := []

/-- What the function costs that is `d` calls above the empty one. -/
def runCost : Nat → Nat
  | 0 => GAS_WASM_CONTROL_OP
  | d + 1 => GAS_WASM_CALL_OP + runCost d + (GAS_WASM_CALL_OP + runCost d) + GAS_WASM_CONTROL_OP

/-- The functions it enters. -/
def runEntered : Nat → List Nat
  | 0 => [10]
  | d + 1 => (10 - (d + 1)) :: (runEntered d ++ runEntered d)

theorem runs {gas d : Nat} (hd : d ≤ 10) :
    Wasm.Runs (data.machine module.imports) module.compiled costs (.function (10 - d)) () gas .fall ()
      gas (runCost d) (runEntered d) := by
  have hindex : ∀ i, module.compiled.hosts + i = i := Nat.zero_add
  induction d with
  | zero =>
    rw [← hindex (10 - 0)]
    exact Wasm.Runs.function (by rfl) (Wasm.Runs.nil (s := ())) (Or.inl rfl)
  | succ d ih =>
    have hnext := ih (by omega)
    have hsucc : 10 - (d + 1) + 1 = 10 - d := by omega
    have hbody : module.compiled.functions[10 - (d + 1)]? = some (twice (10 - (d + 1))) := by
      show ((List.range 10).map twice ++ [.nil])[10 - (d + 1)]? = _
      rw [List.getElem?_append_left (by simp; omega), List.getElem?_map,
        List.getElem?_range (by omega)]
      rfl
    rw [← hsucc] at hnext
    rw [← hindex (10 - (d + 1))]
    have hrun : Wasm.Runs (data.machine module.imports) module.compiled costs
        (.code (twice (10 - (d + 1)))) () gas .fall () gas
        (GAS_WASM_CALL_OP + runCost d + (GAS_WASM_CALL_OP + runCost d + 0))
        (runEntered d ++ (runEntered d ++ [])) :=
      .call (by exact rfl) hnext (.call (by exact rfl) hnext .nil)
    rw [List.append_nil, Nat.add_zero] at hrun
    exact Wasm.Runs.function hbody hrun (Or.inl rfl)

theorem runsModule :
    RunsModule primitives data module contract.code fun _ => ⟨runCost 10, runEntered 10⟩ := by
  intro ctx ctx' ret h
  cases h
  refine ⟨(), (), (), ctx.gasRemaining, ⟨0, []⟩, ⟨runCost 10, runEntered 10⟩, ⟨rfl, rfl⟩, runs (le_refl 10), ?_⟩
  simp

theorem describes : module.Describes primitives contract.code where
  operators := rfl
  imports := rfl
  own := by decide

theorem called : (call primitives contract [] [] [] 1000000).toOption.any
    (fun r => r.2.gasUsed < runCost 10) = true := by
  decide +kernel

end RepeatedSample

/-- Functions that call the next one twice execute operators for more than the call pays. -/
theorem repeated_calls_unpaid :
    ∃ (P : Primitives) (D : WasmData Unit) (M : WasmModule) (contract contract' : ContractState)
      (receipt : Receipt) (x : Executed),
      isWat contract.code = false ∧ M.Describes P contract.code ∧
        RunsModule P D M contract.code (fun _ => x) ∧
        call P contract [] [] [] 1000000 = .ok (contract', receipt) ∧ receipt.gasUsed < x.cost := by
  obtain ⟨⟨contract', receipt⟩, hcall, hless⟩ := ok_of_any RepeatedSample.called
  exact ⟨_, _, _, _, contract', receipt, _, by decide, RepeatedSample.describes,
    RepeatedSample.runsModule, hcall, of_decide_eq_true hless⟩

end Vm

end Curs3d

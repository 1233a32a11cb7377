import Mathlib

/-!
# WebAssembly control flow, metered

Function bodies as trees of blocks over operators, the operator stream they are written as, and a big-step
account of their runs. A run says where control goes, what the operators that were executed cost, which
functions were entered, and what is left of a meter that host functions may lower. What the operators
compute is left open: any data may result, branch conditions and indirect targets included, so that every run
of a program is among the runs here. The one fact about data that is kept is that a constant just pushed is
the argument of the host function called next.

An operator is `own` or was put in by an instrumentation; only own ones count as executed.

`Paid` code announces the cost of each operator to the meter before it gets there, and a run of it never
costs more than it takes from the meter (`Runs.le_of_paid`). Code without loops costs at most what is written
in the functions it enters, once for each time they are entered (`Runs.le_static`).
-/

set_option autoImplicit false

namespace Wasm

variable {κ σ : Type}

/-! ## Code -/

/-- The operators that open no block. `simple` is every one that neither branches nor calls. -/
inductive Op (κ : Type) where
  | simple (c : κ)
  | i64Const (v : Int)
  | br (label : Nat)
  | brIf (label : Nat)
  | brTable (labels : List Nat)
  | ret
  | call (f : Nat)
  | callIndirect
  | returnCall (f : Nat)
  | returnCallIndirect

/-- A sequence of operators and blocks. -/
inductive Code (κ : Type) where
  | nil
  | op (own : Bool) (o : Op κ) (rest : Code κ)
  | block (body rest : Code κ)
  | loop (body rest : Code κ)
  | ifThen (body rest : Code κ)
  | ifElse (body other rest : Code κ)

/-- The operators of a function as a parser reads them. -/
inductive Operator (κ : Type) where
  | leaf (o : Op κ)
  | block
  | loop
  | if_
  | else_
  | end_

namespace Code

def operators : Code κ → List (Operator κ)
  | nil => []
  | op _ o rest => .leaf o :: rest.operators
  | block body rest => .block :: (body.operators ++ .end_ :: rest.operators)
  | loop body rest => .loop :: (body.operators ++ .end_ :: rest.operators)
  | ifThen body rest => .if_ :: (body.operators ++ .end_ :: rest.operators)
  | ifElse body other rest =>
    .if_ :: (body.operators ++ .else_ :: (other.operators ++ .end_ :: rest.operators))

def loopFree : Code κ → Bool
  | nil => true
  | op _ _ rest => rest.loopFree
  | block body rest => body.loopFree && rest.loopFree
  | loop _ _ => false
  | ifThen body rest => body.loopFree && rest.loopFree
  | ifElse body other rest => body.loopFree && other.loopFree && rest.loopFree

/-- No operator was put in. -/
def allOwn : Code κ → Bool
  | nil => true
  | op own _ rest => own && rest.allOwn
  | block body rest => body.allOwn && rest.allOwn
  | loop body rest => body.allOwn && rest.allOwn
  | ifThen body rest => body.allOwn && rest.allOwn
  | ifElse body other rest => body.allOwn && other.allOwn && rest.allOwn

theorem loop_mem_operators {c : Code κ} (h : c.loopFree = false) : .loop ∈ c.operators := by
  induction c with
  | nil => exact absurd h (by simp [loopFree])
  | op own o rest ih => exact List.mem_cons_of_mem _ (ih h)
  | block body rest ihb ihr =>
    simp only [loopFree, Bool.and_eq_false_iff] at h
    simp only [operators, List.mem_cons, List.mem_append]
    rcases h with h | h
    · exact Or.inr (Or.inl (ihb h))
    · exact Or.inr (Or.inr (Or.inr (ihr h)))
  | loop body rest _ _ => simp [operators]
  | ifThen body rest ihb ihr =>
    simp only [loopFree, Bool.and_eq_false_iff] at h
    simp only [operators, List.mem_cons, List.mem_append]
    rcases h with h | h
    · exact Or.inr (Or.inl (ihb h))
    · exact Or.inr (Or.inr (Or.inr (ihr h)))
  | ifElse body other rest ihb iho ihr =>
    simp only [loopFree, Bool.and_eq_false_iff] at h
    simp only [operators, List.mem_cons, List.mem_append]
    rcases h with (h | h) | h
    · exact Or.inr (Or.inl (ihb h))
    · exact Or.inr (Or.inr (Or.inr (Or.inl (iho h))))
    · exact Or.inr (Or.inr (Or.inr (Or.inr (Or.inr (ihr h)))))

end Code

/-- The number of host functions, and the bodies of the functions whose indexes come after them. -/
structure Module (κ : Type) where
  hosts : Nat
  functions : List (Code κ)

/-! ## Runs -/

/-- How control leaves a piece of code. -/
inductive Flow where
  | fall
  | branch (label : Nat)
  | ret

/-- Where control goes when the body of a block ends this way: `none` is to what follows the block. -/
def Flow.out : Flow → Option Flow
  | fall => none
  | branch 0 => none
  | branch (label + 1) => some (branch label)
  | ret => some ret

/-- The data and the meter: what pushing a constant does, and what calling a host function may do. -/
structure Machine (σ : Type) where
  const : Int → σ → σ
  host : Nat → σ → Nat → σ → Nat → Prop

inductive Target (κ : Type) where
  | code (c : Code κ)
  | function (f : Nat)

namespace Op

/-- Control may go on to the next operator. -/
def passes : Op κ → Prop
  | simple _ | brIf _ => True
  | _ => False

/-- Control may leave this way. -/
def jumps : Op κ → Flow → Prop
  | br label, flow | brIf label, flow => flow = .branch label
  | brTable labels, flow => ∃ label ∈ labels, flow = .branch label
  | ret, flow => flow = .ret
  | _, _ => False

def calls : Op κ → Nat → Prop
  | call f, g => g = f
  | callIndirect, _ => True
  | _, _ => False

def tailCalls : Op κ → Nat → Prop
  | returnCall f, g => g = f
  | returnCallIndirect, _ => True
  | _, _ => False

end Op

/-- The code opens a block with this body and goes on with this rest. -/
inductive Enters : Code κ → Code κ → Code κ → Prop
  | block {body rest : Code κ} : Enters (.block body rest) body rest
  | ifThen {body rest : Code κ} : Enters (.ifThen body rest) body rest
  | ifElse {body other rest : Code κ} : Enters (.ifElse body other rest) body rest
  | other {body other rest : Code κ} : Enters (.ifElse body other rest) other rest

/-- What operators cost: `control` is the cost of the operators that open and close blocks. -/
structure Costs (κ : Type) where
  op : Op κ → Nat
  control : Nat

namespace Costs

variable (w : Costs κ)

/-- The cost that counts for an operator. -/
def counted (own : Bool) (o : Op κ) : Nat := if own then w.op o else 0

/-- A body that falls through executes the operator that closes it. -/
def close : Flow → Nat
  | .fall => w.control
  | _ => 0

end Costs

/-- `Runs m M w target s g flow s' g' cost entered`: from data `s` and meter `g`, the target is left by `flow` with
data `s'` and meter `g'`; the own operators it executed cost `cost`, and it entered these functions. -/
inductive Runs (m : Machine σ) (M : Module κ) (w : Costs κ) :
    Target κ → σ → Nat → Flow → σ → Nat → Nat → List Nat → Prop
  | nil {s : σ} {g : Nat} : Runs m M w (.code .nil) s g .fall s g 0 []
  | pass {own : Bool} {o : Op κ} {rest : Code κ} {s s₁ s' : σ} {g g' cost : Nat} {flow : Flow}
      {entered : List Nat} (ho : o.passes)
      (hrest : Runs m M w (.code rest) s₁ g flow s' g' cost entered) :
      Runs m M w (.code (.op own o rest)) s g flow s' g' (w.counted own o + cost) entered
  | const {own : Bool} {v : Int} {rest : Code κ} {s s' : σ} {g g' cost : Nat} {flow : Flow}
      {entered : List Nat} (hrest : Runs m M w (.code rest) (m.const v s) g flow s' g' cost entered) :
      Runs m M w (.code (.op own (.i64Const v) rest)) s g flow s' g'
        (w.counted own (.i64Const v) + cost) entered
  | jump {own : Bool} {o : Op κ} {rest : Code κ} {s s' : σ} {g : Nat} {flow : Flow}
      (ho : o.jumps flow) :
      Runs m M w (.code (.op own o rest)) s g flow s' g (w.counted own o) []
  | call {own : Bool} {o : Op κ} {f : Nat} {rest : Code κ} {s s₁ s' : σ} {g g₁ g' cost₁ cost : Nat}
      {flow : Flow} {entered₁ entered : List Nat} (ho : o.calls f)
      (hcall : Runs m M w (.function f) s g .fall s₁ g₁ cost₁ entered₁)
      (hrest : Runs m M w (.code rest) s₁ g₁ flow s' g' cost entered) :
      Runs m M w (.code (.op own o rest)) s g flow s' g' (w.counted own o + cost₁ + cost)
        (entered₁ ++ entered)
  | tailCall {own : Bool} {o : Op κ} {f : Nat} {rest : Code κ} {s s₁ : σ} {g g₁ cost₁ : Nat}
      {entered₁ : List Nat} (ho : o.tailCalls f)
      (hcall : Runs m M w (.function f) s g .fall s₁ g₁ cost₁ entered₁) :
      Runs m M w (.code (.op own o rest)) s g .ret s₁ g₁ (w.counted own o + cost₁) entered₁
  | enter {c body rest : Code κ} {s s₁ s' : σ} {g g₁ g' cost₁ cost : Nat} {flow₁ flow : Flow}
      {entered₁ entered : List Nat} (hc : Enters c body rest)
      (hbody : Runs m M w (.code body) s g flow₁ s₁ g₁ cost₁ entered₁) (hout : flow₁.out = none)
      (hrest : Runs m M w (.code rest) s₁ g₁ flow s' g' cost entered) :
      Runs m M w (.code c) s g flow s' g' (w.control + cost₁ + w.close flow₁ + cost)
        (entered₁ ++ entered)
  | leave {c body rest : Code κ} {s s₁ : σ} {g g₁ cost₁ : Nat} {flow₁ flow : Flow}
      {entered₁ : List Nat} (hc : Enters c body rest)
      (hbody : Runs m M w (.code body) s g flow₁ s₁ g₁ cost₁ entered₁) (hout : flow₁.out = some flow) :
      Runs m M w (.code c) s g flow s₁ g₁ (w.control + cost₁) entered₁
  | skip {body rest : Code κ} {s s₁ s' : σ} {g g' cost : Nat} {flow : Flow} {entered : List Nat}
      (hrest : Runs m M w (.code rest) s₁ g flow s' g' cost entered) :
      Runs m M w (.code (.ifThen body rest)) s g flow s' g' (w.control + cost) entered
  | loopFall {body rest : Code κ} {s s₁ s' : σ} {g g₁ g' cost₁ cost : Nat} {flow : Flow}
      {entered₁ entered : List Nat}
      (hbody : Runs m M w (.code body) s g .fall s₁ g₁ cost₁ entered₁)
      (hrest : Runs m M w (.code rest) s₁ g₁ flow s' g' cost entered) :
      Runs m M w (.code (.loop body rest)) s g flow s' g' (w.control + cost₁ + w.control + cost)
        (entered₁ ++ entered)
  | loopAgain {body rest : Code κ} {s s₁ s' : σ} {g g₁ g' cost₁ cost : Nat} {flow : Flow}
      {entered₁ entered : List Nat}
      (hbody : Runs m M w (.code body) s g (.branch 0) s₁ g₁ cost₁ entered₁)
      (hagain : Runs m M w (.code (.loop body rest)) s₁ g₁ flow s' g' cost entered) :
      Runs m M w (.code (.loop body rest)) s g flow s' g' (w.control + cost₁ + cost)
        (entered₁ ++ entered)
  | loopLeave {body rest : Code κ} {s s₁ : σ} {g g₁ cost₁ : Nat} {flow₁ flow : Flow}
      {entered₁ : List Nat}
      (hbody : Runs m M w (.code body) s g flow₁ s₁ g₁ cost₁ entered₁) (hout : flow₁.out = some flow) :
      Runs m M w (.code (.loop body rest)) s g flow s₁ g₁ (w.control + cost₁) entered₁
  | host {f : Nat} {s s' : σ} {g g' : Nat} (hf : f < M.hosts) (hhost : m.host f s g s' g') :
      Runs m M w (.function f) s g .fall s' g' 0 []
  | function {i : Nat} {body : Code κ} {s s₁ s₂ s' : σ} {g g' cost : Nat} {flow : Flow}
      {entered : List Nat} (hi : M.functions[i]? = some body)
      (hbody : Runs m M w (.code body) s₁ g flow s₂ g' cost entered)
      (hout : flow.out = none ∨ flow = .ret) :
      Runs m M w (.function (M.hosts + i)) s g .fall s' g' (cost + w.close flow) (i :: entered)

variable {m : Machine σ} {M : Module κ} {w : Costs κ} {target : Target κ} {s s' : σ}
  {g g' cost : Nat} {flow : Flow} {entered : List Nat}

/-- The meter never goes up if no host function raises it. -/
theorem Runs.meter_le (hhost : ∀ f s g s' g', m.host f s g s' g' → g' ≤ g)
    (h : Runs m M w target s g flow s' g' cost entered) : g' ≤ g := by
  induction h with
  | nil => exact le_refl _
  | pass _ _ ih => exact ih
  | const _ ih => exact ih
  | jump _ => exact le_refl _
  | call _ _ _ ih₁ ih₂ => exact ih₂.trans ih₁
  | tailCall _ _ ih => exact ih
  | enter _ _ _ _ ih₁ ih₂ => exact ih₂.trans ih₁
  | leave _ _ _ ih => exact ih
  | skip _ ih => exact ih
  | loopFall _ _ ih₁ ih₂ => exact ih₂.trans ih₁
  | loopAgain _ _ ih₁ ih₂ => exact ih₂.trans ih₁
  | loopLeave _ _ ih => exact ih
  | host _ hcall => exact hhost _ _ _ _ _ hcall
  | function _ _ _ ih => exact ih

/-! ## Code that announces its costs -/

/-- The call of host function `h` with the constant `v`, before `rest`. -/
def charge (h v : Nat) (rest : Code κ) : Code κ :=
  .op false (.i64Const (v : Int)) (.op false (.call h) rest)

/-- A charge costs nothing itself, and lowers the meter as the host function does. -/
theorem Runs.charge {h v : Nat} {rest : Code κ} {s₁ : σ} {g₁ : Nat} (hh : h < M.hosts)
    (hhost : m.host h (m.const v s) g s₁ g₁)
    (hrest : Runs m M w (.code rest) s₁ g₁ flow s' g' cost entered) :
    Runs m M w (.code (Wasm.charge h v rest)) s g flow s' g' cost entered := by
  have hcall : Runs m M w (.code (.op false (.call h) rest)) (m.const v s) g flow s' g'
      (w.counted false (.call h) + 0 + cost) ([] ++ entered) :=
    .call (by exact rfl) (.host hh hhost) hrest
  have hconst : Runs m M w (.code (Wasm.charge h v rest)) s g flow s' g'
      (w.counted false (.i64Const v) + (w.counted false (.call h) + 0 + cost)) ([] ++ entered) :=
    .const hcall
  simpa [Costs.counted] using hconst

/-- `Paid w h p c q`: with `p` announced before it, every operator of `c` is announced by calls of host
function `h` before it costs more, and at least `q` is left at the end. A loop's body starts with the operator that opens
it unannounced. -/
inductive Paid (w : Costs κ) (h : Nat) : Int → Code κ → Int → Prop
  | nil {p q : Int} (hq : q ≤ p) : Paid w h p .nil q
  | charge {p q : Int} {v : Nat} {rest : Code κ} (hrest : Paid w h (p + v) rest q) :
      Paid w h p (charge h v rest) q
  | op {p q : Int} {o : Op κ} {rest : Code κ} (ho : w.op o ≤ p) (hrest : Paid w h 0 rest q) :
      Paid w h p (.op true o rest) q
  | block {p q : Int} {body rest : Code κ} (hp : w.control ≤ p) (hbody : Paid w h 0 body w.control)
      (hrest : Paid w h 0 rest q) : Paid w h p (.block body rest) q
  | loop {p q : Int} {body rest : Code κ} (hp : 0 ≤ p) (hbody : Paid w h (-w.control) body w.control)
      (hrest : Paid w h 0 rest q) : Paid w h p (.loop body rest) q
  | ifThen {p q : Int} {body rest : Code κ} (hp : w.control ≤ p) (hbody : Paid w h 0 body w.control)
      (hrest : Paid w h 0 rest q) : Paid w h p (.ifThen body rest) q
  | ifElse {p q : Int} {body other rest : Code κ} (hp : w.control ≤ p)
      (hbody : Paid w h 0 body w.control) (hother : Paid w h 0 other w.control)
      (hrest : Paid w h 0 rest q) : Paid w h p (.ifElse body other rest) q

theorem Paid.mono {h : Nat} {p p' q : Int} {c : Code κ} (hc : Paid w h p c q) (hle : p ≤ p') :
    Paid w h p' c q := by
  induction hc generalizing p' with
  | nil hq => exact .nil (hq.trans hle)
  | charge _ ih => exact .charge (ih (by omega))
  | op ho hrest _ => exact .op (ho.trans hle) hrest
  | block hp hbody hrest => exact .block (hp.trans hle) hbody hrest
  | loop hp hbody hrest => exact .loop (hp.trans hle) hbody hrest
  | ifThen hp hbody hrest => exact .ifThen (hp.trans hle) hbody hrest
  | ifElse hp hbody hother hrest => exact .ifElse (hp.trans hle) hbody hother hrest

/-- What is left of an announcement when code is left by `flow`. -/
def unspent (q : Int) : Flow → Int
  | .fall => q
  | _ => 0

/-- Paid code, or paid code about to call the host function with the constant it has pushed. -/
inductive Ready (m : Machine σ) (w : Costs κ) (h : Nat) : Target κ → σ → Int → Int → Prop
  | code {c : Code κ} {s : σ} {p q : Int} (hc : Paid w h p c q) : Ready m w h (.code c) s p q
  | hook {rest : Code κ} {v : Nat} {s : σ} {p q : Int} (hrest : Paid w h (p + v) rest q) :
      Ready m w h (.code (.op false (.call h) rest)) (m.const v s) p q
  | function {f : Nat} {s : σ} : Ready m w h (.function f) s 0 0

theorem unspent_jump {o : Op κ} (ho : o.jumps flow) (q : Int) : unspent q flow = 0 := by
  cases flow with
  | fall => cases o <;> simp [Op.jumps] at ho
  | branch label => rfl
  | ret => rfl

theorem unspent_out {flow₁ : Flow} (hout : flow₁.out = some flow) (q : Int) :
    unspent q flow₁ = 0 ∧ unspent q flow = 0 := by
  match flow₁, hout with
  | .branch (label + 1), hout =>
    cases hout
    exact ⟨rfl, rfl⟩
  | .ret, hout =>
    cases hout
    exact ⟨rfl, rfl⟩

theorem unspent_control : unspent w.control flow = w.close flow := by
  cases flow <;> rfl

/-- An operator that passes, jumps or calls in paid code is its own, and was announced. -/
theorem Ready.own {own : Bool} {o : Op κ} {rest : Code κ} {h : Nat} {p q : Int}
    (hr : Ready m w h (.code (.op own o rest)) s p q) (hconst : ∀ v, o ≠ .i64Const v)
    (hcall : own = false → o ≠ .call h) : (w.counted own o : Int) ≤ p ∧ Paid w h 0 rest q := by
  cases hr with
  | code hc =>
    cases hc with
    | charge _ => exact absurd rfl (hconst _)
    | op ho hrest => exact ⟨ho, hrest⟩
  | hook _ => exact absurd rfl (hcall rfl)

theorem Ready.enters {c body rest : Code κ} {h : Nat} {p q : Int} (hc : Enters c body rest)
    (hr : Ready m w h (.code c) s p q) :
    w.control ≤ p ∧ Paid w h 0 body w.control ∧ Paid w h 0 rest q := by
  cases hr with
  | hook _ => cases hc
  | code hpaid =>
    cases hc with
    | block =>
      cases hpaid with
      | block hp hbody hrest => exact ⟨hp, hbody, hrest⟩
    | ifThen =>
      cases hpaid with
      | ifThen hp hbody hrest => exact ⟨hp, hbody, hrest⟩
    | ifElse =>
      cases hpaid with
      | ifElse hp hbody _ hrest => exact ⟨hp, hbody, hrest⟩
    | other =>
      cases hpaid with
      | ifElse hp _ hother hrest => exact ⟨hp, hother, hrest⟩

theorem Ready.loop {body rest : Code κ} {h : Nat} {p q : Int}
    (hr : Ready m w h (.code (.loop body rest)) s p q) :
    0 ≤ p ∧ Paid w h (-w.control) body w.control ∧ Paid w h 0 rest q := by
  cases hr with
  | code hpaid =>
    cases hpaid with
    | loop hp hbody hrest => exact ⟨hp, hbody, hrest⟩

/-- **A run of paid code costs no more than it takes from the meter.** -/
theorem Runs.le_of_ready {h : Nat} {p q : Int} (hM : ∀ body ∈ M.functions, Paid w h 0 body w.control)
    (hh : h < M.hosts)
    (hcharge : ∀ (v : Nat) s g s' g', m.host h (m.const v s) g s' g' → g' + v = g)
    (hhost : ∀ f s g s' g', m.host f s g s' g' → g' ≤ g)
    (hrun : Runs m M w target s g flow s' g' cost entered) (hr : Ready m w h target s p q) :
    (cost : Int) + g' + unspent q flow ≤ g + p := by
  induction hrun generalizing p q with
  | nil =>
    cases hr with
    | code hc =>
      cases hc with
      | nil hq =>
        simp only [unspent]
        push_cast
        omega
  | @pass own o rest _ _ _ _ _ _ _ _ ho _ ih =>
    obtain ⟨hpaid, hrest⟩ := hr.own (by rintro v rfl; exact ho) (by rintro - rfl; exact ho)
    have := ih (.code hrest)
    push_cast
    omega
  | const _ ih =>
    cases hr with
    | code hc =>
      cases hc with
      | charge hrest =>
        have := ih (.hook hrest)
        simpa [Costs.counted] using this
      | op ho hrest =>
        have := ih (.code hrest)
        simp only [Costs.counted, if_true]
        push_cast
        omega
  | @jump own o _ _ _ _ _ ho =>
    obtain ⟨hpaid, -⟩ := hr.own (by rintro v rfl; exact ho) (by rintro - rfl; exact ho)
    rw [unspent_jump ho]
    omega
  | @call own o f _ _ _ _ _ _ _ _ _ _ _ _ ho hcall _ ih₁ ih₂ =>
    by_cases hhook : own = false ∧ o = .call h
    · obtain ⟨rfl, rfl⟩ := hhook
      -- the hook takes the constant just pushed
      obtain rfl : f = h := ho
      cases hr with
      | code hc => cases hc
      | @hook _ v s _ _ hrest =>
        cases hcall with
        | host _ hhook =>
          have hmeter := hcharge v _ _ _ _ hhook
          have := ih₂ (.code hrest)
          simp only [Costs.counted]
          push_cast
          omega
        | function _ _ _ => exact absurd hh (by omega)
    · obtain ⟨hpaid, hrest⟩ := hr.own (by rintro v rfl; exact ho) (by rintro rfl rfl; exact hhook ⟨rfl, rfl⟩)
      have hcallee := ih₁ .function
      have hafter := ih₂ (.code hrest)
      simp only [unspent] at hcallee
      push_cast
      omega
  | @tailCall own o _ _ _ _ _ _ _ _ ho _ ih =>
    obtain ⟨hpaid, -⟩ := hr.own (by rintro v rfl; exact ho) (by rintro - rfl; exact ho)
    have hcallee := ih .function
    simp only [unspent] at hcallee ⊢
    push_cast
    omega
  | enter hc _ _ _ ih₁ ih₂ =>
    obtain ⟨hp, hbody, hrest⟩ := hr.enters hc
    have hinner := ih₁ (.code hbody)
    have hafter := ih₂ (.code hrest)
    rw [unspent_control] at hinner
    push_cast
    omega
  | leave hc _ hout ih =>
    obtain ⟨hp, hbody, -⟩ := hr.enters hc
    have hinner := ih (.code hbody)
    rw [(unspent_out hout _).1] at hinner
    rw [(unspent_out hout _).2]
    push_cast
    omega
  | skip _ ih =>
    obtain ⟨hp, -, hrest⟩ := hr.enters .ifThen
    have hafter := ih (.code hrest)
    push_cast
    omega
  | loopFall _ _ ih₁ ih₂ =>
    obtain ⟨hp, hbody, hrest⟩ := hr.loop
    have hinner := ih₁ (.code hbody)
    have hafter := ih₂ (.code hrest)
    simp only [unspent] at hinner
    push_cast
    omega
  | loopAgain _ _ ih₁ ih₂ =>
    obtain ⟨hp, hbody, hrest⟩ := hr.loop
    have hinner := ih₁ (.code hbody)
    have hagain := ih₂ (.code (.loop (le_refl 0) hbody hrest))
    simp only [unspent] at hinner
    push_cast
    omega
  | loopLeave _ hout ih =>
    obtain ⟨hp, hbody, -⟩ := hr.loop
    have hinner := ih (.code hbody)
    rw [(unspent_out hout _).1] at hinner
    rw [(unspent_out hout _).2]
    push_cast
    omega
  | host hf hcall =>
    cases hr
    have := hhost _ _ _ _ _ hcall
    simp only [unspent]
    push_cast
    omega
  | function hi _ _ ih =>
    cases hr
    have hinner := ih (.code (hM _ (List.mem_of_getElem? hi)))
    rw [unspent_control] at hinner
    simp only [unspent]
    push_cast
    omega

/-! ## Code without loops -/

/-- What the own operators of `c` cost, each counted once. -/
def staticCost (w : Costs κ) : Code κ → Nat
  | .nil => 0
  | .op own o rest => w.counted own o + staticCost w rest
  | .block body rest => w.control + staticCost w body + w.control + staticCost w rest
  | .loop body rest => w.control + staticCost w body + w.control + staticCost w rest
  | .ifThen body rest => w.control + staticCost w body + w.control + staticCost w rest
  | .ifElse body other rest =>
    w.control + staticCost w body + w.control + staticCost w other + w.control + staticCost w rest

/-- The cost of function `i`, with the operator that ends it. -/
def functionCost (w : Costs κ) (M : Module κ) (i : Nat) : Nat :=
  (M.functions[i]?.map fun body => staticCost w body + w.control).getD 0

/-- What a target may cost without the functions it enters. -/
def targetCost (w : Costs κ) : Target κ → Nat
  | .code c => staticCost w c
  | .function _ => 0

theorem close_le : w.close flow ≤ w.control := by
  cases flow <;> simp [Costs.close]

theorem staticCost_enters {c body rest : Code κ} (hc : Enters c body rest) :
    w.control + staticCost w body + w.control + staticCost w rest ≤ staticCost w c := by
  cases hc <;> simp only [staticCost] <;> omega

theorem loopFree_enters {c body rest : Code κ} (hc : Enters c body rest) (h : c.loopFree = true) :
    body.loopFree = true ∧ rest.loopFree = true := by
  cases hc <;> simp only [Code.loopFree, Bool.and_eq_true] at h <;> tauto

def Target.loopFree : Target κ → Bool
  | .code c => c.loopFree
  | .function _ => true

/-- **Without loops a run costs at most the text of the functions it enters**, once for each time one is
entered. -/
theorem Runs.le_static (hM : ∀ body ∈ M.functions, body.loopFree = true)
    (hrun : Runs m M w target s g flow s' g' cost entered) (ht : target.loopFree = true) :
    cost ≤ targetCost w target + (entered.map (functionCost w M)).sum := by
  induction hrun with
  | nil => exact Nat.zero_le _
  | pass _ _ ih =>
    have := ih ht
    simp only [targetCost, staticCost] at this ⊢
    omega
  | const _ ih =>
    have := ih ht
    simp only [targetCost, staticCost] at this ⊢
    omega
  | jump _ =>
    simp only [targetCost, staticCost]
    omega
  | call _ _ _ ih₁ ih₂ =>
    have hcallee := ih₁ rfl
    have hafter := ih₂ ht
    simp only [targetCost, staticCost, List.map_append, List.sum_append] at hcallee hafter ⊢
    omega
  | tailCall _ _ ih =>
    have hcallee := ih rfl
    simp only [targetCost, staticCost] at hcallee ⊢
    omega
  | @enter _ _ _ _ _ _ _ _ _ _ _ flow₁ _ _ _ hc _ _ _ ih₁ ih₂ =>
    obtain ⟨hbody, hrest⟩ := loopFree_enters hc ht
    have hinner := ih₁ hbody
    have hafter := ih₂ hrest
    have hstatic := @staticCost_enters _ w _ _ _ hc
    have hclose := @close_le _ w flow₁
    simp only [targetCost, List.map_append, List.sum_append] at hinner hafter ⊢
    omega
  | leave hc _ _ ih =>
    obtain ⟨hbody, -⟩ := loopFree_enters hc ht
    have hinner := ih hbody
    have hstatic := @staticCost_enters _ w _ _ _ hc
    simp only [targetCost] at hinner ⊢
    omega
  | skip _ ih =>
    obtain ⟨-, hrest⟩ := loopFree_enters .ifThen ht
    have hafter := ih hrest
    simp only [targetCost, staticCost] at hafter ⊢
    omega
  -- The rules of a loop do not apply to code without one.
  | loopFall _ _ _ _ => exact absurd ht (by simp [Target.loopFree, Code.loopFree])
  | loopAgain _ _ _ _ => exact absurd ht (by simp [Target.loopFree, Code.loopFree])
  | loopLeave _ _ _ => exact absurd ht (by simp [Target.loopFree, Code.loopFree])
  | host _ _ => exact Nat.zero_le _
  | @function i body _ _ _ _ _ _ _ flow₁ _ hi _ _ ih =>
    have hinner := ih (hM _ (List.mem_of_getElem? hi))
    have hclose := @close_le _ w flow₁
    have hcost : functionCost w M i = staticCost w body + w.control := by
      simp only [functionCost, hi, Option.map_some, Option.getD_some]
    simp only [targetCost, List.map_cons, List.sum_cons, hcost] at hinner ⊢
    omega

end Wasm

import Mathlib

/-!
# Calls one after the other

A contract takes calls. A call that succeeds gives the next state, and one that reverts leaves the state
as it was (`after`). `Each P` says that every successful call of a sequence, at the state it meets,
satisfies `P`: it is how a property of steps is said of a whole run. An invariant carries over the run
(`run_induction`), and under one, step properties that are equivalent are equivalent over every run
(`each_congr`).
-/

set_option autoImplicit false

namespace Trace

variable {σ κ ε : Type} (step : σ → κ → Except ε σ)

/-- The state after a call, successful or not. -/
def after (s : σ) (c : κ) : σ :=
  match step s c with
  | .ok s' => s'
  | .error _ => s

def run (s : σ) (calls : List κ) : σ := calls.foldl (after step) s

/-- Every successful call of the sequence satisfies `P`, from the state it is made in to the state it
leaves. -/
def Each (P : σ → κ → σ → Prop) : σ → List κ → Prop
  | _, [] => True
  | s, c :: rest => (∀ s', step s c = .ok s' → P s c s') ∧ Each P (after step s c) rest

variable {step} {s s' : σ} {c : κ} {rest calls : List κ} {P Q : σ → κ → σ → Prop}

@[simp] theorem run_nil : run step s [] = s := rfl

@[simp] theorem run_cons : run step s (c :: rest) = run step (after step s c) rest := rfl

theorem run_append : run step s (calls ++ rest) = run step (run step s calls) rest :=
  List.foldl_append

theorem each_append :
    Each step P s (calls ++ rest) ↔ Each step P s calls ∧ Each step P (run step s calls) rest := by
  induction calls generalizing s with
  | nil => simp [Each]
  | cons c calls ih =>
    simp only [List.cons_append, Each, run_cons, ih]
    exact (and_assoc).symm

@[simp] theorem after_of_ok (h : step s c = .ok s') : after step s c = s' := by
  simp [after, h]

@[simp] theorem after_of_error {e : ε} (h : step s c = .error e) : after step s c = s := by
  simp [after, h]

/-- What successful calls keep, every call keeps. -/
theorem after_induction {Inv : σ → Prop} (h : Inv s)
    (hstep : ∀ s', step s c = .ok s' → Inv s') : Inv (after step s c) := by
  cases hc : step s c with
  | ok s' =>
    rw [after_of_ok hc]
    exact hstep s' hc
  | error e => simpa [after, hc] using h

/-- **What successful calls keep, every run keeps.** -/
theorem run_induction {Inv : σ → Prop} (h : Inv s)
    (hstep : ∀ s c s', Inv s → step s c = .ok s' → Inv s') : Inv (run step s calls) := by
  induction calls generalizing s with
  | nil => exact h
  | cons c rest ih => exact ih (after_induction h fun s' hs' => hstep s c s' h hs')

/-- What the successful calls of a sequence keep, its run keeps. -/
theorem run_induction_of_mem {Inv : σ → Prop} (h : Inv s)
    (hstep : ∀ s c s', c ∈ calls → Inv s → step s c = .ok s' → Inv s') : Inv (run step s calls) := by
  induction calls generalizing s with
  | nil => exact h
  | cons c rest ih =>
    refine ih (after_induction h fun s' hs' => hstep s c s' List.mem_cons_self h hs') ?_
    exact fun s d s' hd => hstep s d s' (List.mem_cons_of_mem c hd)

/-- **Under an invariant, equivalent step properties are equivalent over every run.** -/
theorem each_congr {Inv : σ → Prop} (h : Inv s)
    (hstep : ∀ s c s', Inv s → step s c = .ok s' → Inv s')
    (hiff : ∀ s c s', Inv s → step s c = .ok s' → (P s c s' ↔ Q s c s')) :
    Each step P s calls ↔ Each step Q s calls := by
  induction calls generalizing s with
  | nil => exact Iff.rfl
  | cons c rest ih =>
    have hrest := ih (after_induction h fun s' hs' => hstep s c s' h hs')
    have hhead : (∀ s', step s c = .ok s' → P s c s') ↔ ∀ s', step s c = .ok s' → Q s c s' :=
      forall_congr' fun s' => imp_congr_right fun hs' => hiff s c s' h hs'
    exact and_congr hhead hrest

/-- A run of a machine that another one extends is the extension's, without what it adds. -/
theorem run_map {τ : Type} {step' : τ → κ → Except ε τ} {f : σ → τ}
    (h : ∀ s c, step' (f s) c = (step s c).map f) : run step' (f s) calls = f (run step s calls) := by
  induction calls generalizing s with
  | nil => rfl
  | cons c rest ih =>
    have hafter : after step' (f s) c = f (after step s c) := by
      simp only [after, h]
      cases step s c <;> rfl
    rw [run_cons, run_cons, hafter, ih]

/-- A run keeps an invariant when each of its steps meets a condition that keeps it. -/
theorem run_induction_of_each {Inv : σ → Prop} (h : Inv s) (heach : Each step P s calls)
    (hstep : ∀ s c s', Inv s → step s c = .ok s' → P s c s' → Inv s') :
    Inv (run step s calls) := by
  induction calls generalizing s with
  | nil => exact h
  | cons c rest ih =>
    obtain ⟨hhead, hrest⟩ := heach
    exact ih (after_induction h fun s' hs' => hstep s c s' h hs' (hhead s' hs')) hrest

/-! ## Calls in their places -/

/-- What cannot happen again happens in one place: a call of a kind that none after it is of. -/
theorem eq_of_once {good : List κ → κ → Prop} {past past' rest rest' : List κ} {d : κ}
    (honce : ∀ past c mid d rest, calls = past ++ c :: mid ++ d :: rest → good past c →
      good (past ++ c :: mid) d → False)
    (hc : calls = past ++ c :: rest) (hd : calls = past' ++ d :: rest') (hpast : good past c)
    (hpast' : good past' d) : past = past' := by
  have hsplit : past ++ c :: rest = past' ++ d :: rest' := hc.symm.trans hd
  rcases List.append_eq_append_iff.mp hsplit with ⟨mid, rfl, hmid⟩ | ⟨mid, rfl, hmid⟩
  · cases mid with
    | nil => rw [List.append_nil]
    | cons e mid =>
      obtain ⟨rfl, -⟩ := List.cons.inj hmid
      exact (honce past c mid d rest' hd hpast hpast').elim
  · cases mid with
    | nil => rw [List.append_nil]
    | cons e mid =>
      obtain ⟨rfl, -⟩ := List.cons.inj hmid
      exact (honce past' d mid c rest hc hpast' hpast).elim

/-! ## Calls with answers

A machine that answers every call, and changes its state as it does. -/

section Answers

variable {τ α : Type} (f : σ → κ → α × σ) (g : τ → κ → α × τ)

/-- The state after the calls. -/
def final (s : σ) (calls : List κ) : σ := calls.foldl (fun s c => (f s c).2) s

/-- What the calls are answered. -/
def answers : σ → List κ → List α
  | _, [] => []
  | s, c :: rest => (f s c).1 :: answers (f s c).2 rest

theorem final_concat (s : σ) (calls : List κ) (c : κ) :
    final f s (calls ++ [c]) = (f (final f s calls) c).2 := List.foldl_concat ..

/-- **Two machines answer alike** exactly when each call finds them in states that answer it alike. -/
theorem answers_eq_iff (s : σ) (t : τ) (calls : List κ) :
    answers f s calls = answers g t calls ↔
      ∀ past c rest, calls = past ++ c :: rest → (f (final f s past) c).1 = (g (final g t past) c).1 := by
  induction calls generalizing s t with
  | nil => exact ⟨fun _ past c rest h => absurd h (by simp), fun _ => rfl⟩
  | cons c calls ih =>
    rw [answers, answers, List.cons.injEq, ih]
    constructor
    · rintro ⟨hnow, hlater⟩ past d rest hsplit
      cases past with
      | nil =>
        obtain ⟨rfl, rfl⟩ := List.cons.inj hsplit
        exact hnow
      | cons p past =>
        obtain ⟨rfl, rfl⟩ := List.cons.inj hsplit
        exact hlater past d rest rfl
    · intro h
      exact ⟨h [] c calls rfl, fun past d rest hsplit => h (c :: past) d rest (by rw [hsplit]; rfl)⟩

end Answers

end Trace

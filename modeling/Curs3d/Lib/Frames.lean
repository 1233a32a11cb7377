import Curs3d.Lib.Trace

/-!
# Call frames that can be undone

A contract that pays hands control to the code of the account it pays, which can call it again before it
returns; and any code that calls the contract may itself run in a frame that is undone later. `Config`
is the current state with the frames that are open, innermost first, each with the state it began
in: a frame that returns keeps what happened in it, and one that reverts puts its beginning back.

A call that stops in the code of another account opens a frame of its own kind (`paying`), and `resume` is what
the contract does when that code returns. What every call and `resume` keep holds at every point where
control is outside the contract, in the current state and in every state that a revert can bring back
(`Everywhere.step`).
-/

set_option autoImplicit false

namespace Frames

structure Frame (σ : Type) where
  saved : σ
  paying : Bool

structure Config (σ : Type) where
  state : σ
  frames : List (Frame σ) := []

inductive Event (κ : Type) where
  | call (c : κ)
  /-- The frame of another account's code begins. -/
  | enter
  /-- The innermost frame ends, returning or reverting. -/
  | finish (returns : Bool)

variable {σ κ ε : Type} (call : σ → κ → Except ε (σ × Bool)) (resume : σ → σ)

/-- A frame that ends: a payment that returns goes on in the contract. -/
def finish (cfg : Config σ) (returns : Bool) : Config σ :=
  match cfg.frames with
  | [] => cfg
  | f :: frames =>
    match returns, f.paying with
    | true, true => { state := resume cfg.state, frames }
    | true, false => { state := cfg.state, frames }
    | false, _ => { state := f.saved, frames }

def step (cfg : Config σ) : Event κ → Except ε (Config σ)
  | .call c =>
    match call cfg.state c with
    | .ok (s, true) => .ok { state := s, frames := ⟨cfg.state, true⟩ :: cfg.frames }
    | .ok (s, false) => .ok { state := s, frames := cfg.frames }
    | .error e => .error e
  | .enter => .ok { state := cfg.state, frames := ⟨cfg.state, false⟩ :: cfg.frames }
  | .finish returns => .ok (finish resume cfg returns)

variable {call} {resume} {cfg cfg' : Config σ} {ev : Event κ} {Inv : σ → Prop}

/-- The current state and all that a revert can bring back satisfy `Inv`. -/
structure Everywhere (Inv : σ → Prop) (cfg : Config σ) : Prop where
  state : Inv cfg.state
  saved : ∀ f ∈ cfg.frames, Inv f.saved

theorem Everywhere.mono {Inv' : σ → Prop} (h : Everywhere Inv cfg) (himp : ∀ s, Inv s → Inv' s) :
    Everywhere Inv' cfg :=
  ⟨himp _ h.state, fun f hf => himp _ (h.saved f hf)⟩

theorem Everywhere.finish (h : Everywhere Inv cfg) (hresume : ∀ s, Inv s → Inv (resume s))
    (returns : Bool) : Everywhere Inv (finish resume cfg returns) := by
  simp only [Frames.finish]
  split
  · exact h
  · next f frames hframes =>
    have htop : Inv f.saved := h.saved f (by simp [hframes])
    have hrest : ∀ g ∈ frames, Inv g.saved := by
      intro g hg
      exact h.saved g (by simp [hframes, hg])
    split
    · exact ⟨hresume _ h.state, hrest⟩
    · exact ⟨h.state, hrest⟩
    · exact ⟨htop, hrest⟩

/-- **What the calls and `resume` keep holds everywhere after a step.** -/
theorem Everywhere.step (h : Everywhere Inv cfg) (hok : step call resume cfg ev = .ok cfg')
    (hresume : ∀ s, Inv s → Inv (resume s))
    (hcall : ∀ c s' b, ev = .call c → call cfg.state c = .ok (s', b) → Inv s') :
    Everywhere Inv cfg' := by
  cases ev with
  | call c =>
    simp only [Frames.step] at hok
    split at hok
    · next s hs =>
      cases hok
      refine ⟨hcall c s true rfl hs, ?_⟩
      intro f hf
      rcases List.mem_cons.mp hf with rfl | hf
      · exact h.state
      · exact h.saved f hf
    · next s hs =>
      cases hok
      exact ⟨hcall c s false rfl hs, h.saved⟩
    · exact absurd hok (by simp)
  | enter =>
    cases hok
    refine ⟨h.state, ?_⟩
    intro f hf
    rcases List.mem_cons.mp hf with rfl | hf
    · exact h.state
    · exact h.saved f hf
  | finish returns =>
    cases hok
    exact h.finish hresume returns

/-- A step that undoes nothing relates the states as the calls and `resume` do. -/
theorem state_step {R : σ → σ → Prop} (hrefl : ∀ s, R s s) (hok : step call resume cfg ev = .ok cfg')
    (hreturns : ev ≠ .finish false) (hresume : ∀ s, R s (resume s))
    (hcall : ∀ c s' b, ev = .call c → call cfg.state c = .ok (s', b) → R cfg.state s') :
    R cfg.state cfg'.state := by
  cases ev with
  | call c =>
    simp only [Frames.step] at hok
    split at hok
    · next s hs =>
      cases hok
      exact hcall c s true rfl hs
    · next s hs =>
      cases hok
      exact hcall c s false rfl hs
    · exact absurd hok (by simp)
  | enter =>
    cases hok
    exact hrefl _
  | finish returns =>
    cases hok
    simp only [finish]
    split
    · exact hrefl _
    · split
      · exact hresume _
      · exact hrefl _
      · exact absurd rfl hreturns

end Frames

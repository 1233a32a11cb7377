import Curs3d.Lib.PrefixFree

/-!
# Decoders

A decoder takes a value off the front of a message and leaves the rest, or fails. It decodes an encoding
when it gives back every encoded value, whatever follows (`Decodes`); such an encoding is prefix-free. Decoders are run
one after the other by their monad, so a record is decoded field by field (`Decodes.run`). A decoder that takes
items fails on a message that has too few of them (`Takes`), which is all that a reader needs to know to
tell two formats apart when one of them announces more than is there.
-/

set_option autoImplicit false

abbrev Decoder (β α : Type) := StateT (List β) Option α

namespace Decoder

variable {α β γ : Type}

/-- The next `n` items. -/
def take (n : Nat) : Decoder β (List β) := fun m =>
  if n ≤ m.length then some (m.take n, m.drop n) else none

def fail : Decoder β α := fun _ => none

/-- `n` values in a row. -/
def times (d : Decoder β α) : Nat → Decoder β (List α)
  | 0 => pure []
  | n + 1 => do
    let a ← d
    let rest ← times d n
    return a :: rest

/-- The value at the front of a message, whatever follows it. -/
def decode (d : Decoder β α) (m : List β) : Option α := (d m).map Prod.fst

/-- `d` gives back what `enc` encoded, for values in `D`. -/
def Decodes (d : Decoder β α) (enc : α → List β) (D : Set α) : Prop :=
  ∀ ⦃a : α⦄, a ∈ D → ∀ rest : List β, d (enc a ++ rest) = some (a, rest)

/-- `d` takes at least `w` items. -/
def Takes (d : Decoder β α) (w : Nat) : Prop :=
  ∀ ⦃m : List β⦄ ⦃a : α⦄ ⦃rest : List β⦄, d m = some (a, rest) → rest.length + w ≤ m.length

variable {d : Decoder β α} {enc : α → List β} {D : Set α} {f : α → Decoder β γ} {a : α} {n v w : Nat}
  {m rest : List β}

theorem bind_eq_some {c : γ} : (d >>= f) m = some (c, rest) ↔
    ∃ a m', d m = some (a, m') ∧ f a m' = some (c, rest) := by
  show (d m).bind (fun p => f p.1 p.2) = _ ↔ _
  rw [Option.bind_eq_some_iff]
  constructor
  · rintro ⟨⟨a, m'⟩, ha, hc⟩
    exact ⟨a, m', ha, hc⟩
  · rintro ⟨a, m', ha, hc⟩
    exact ⟨(a, m'), ha, hc⟩

theorem bind_eq_none (h : d m = none) : (d >>= f) m = none := by
  show (d m).bind (fun p => f p.1 p.2) = none
  rw [h]
  rfl

/-! ## What an encoding gives -/

/-- The next field is read, and the reader goes on with what follows. -/
theorem Decodes.run (h : Decodes d enc D) (ha : a ∈ D) : (d >>= f) (enc a ++ rest) = f a rest := by
  show (d (enc a ++ rest)).bind (fun p => f p.1 p.2) = _
  rw [h ha]
  rfl

theorem Decodes.decode (h : Decodes d enc D) (ha : a ∈ D) : d.decode (enc a) = some a := by
  have hrun := h ha []
  rw [List.append_nil] at hrun
  rw [Decoder.decode, hrun]
  rfl

theorem Decodes.prefixFree (h : Decodes d enc D) : PrefixFree enc D := by
  intro a ha b hb x y heq
  have hsame := h ha x
  rw [heq, h hb y] at hsame
  cases hsame
  exact ⟨rfl, rfl⟩

theorem Decodes.mono {E : Set α} (h : Decodes d enc D) (hsub : E ⊆ D) : Decodes d enc E :=
  fun _ ha => h (hsub ha)

theorem decodes_take : Decodes (take n : Decoder β (List β)) id {l | l.length = n} := by
  intro l hl rest
  cases hl
  simp [take]

theorem Decodes.times (h : Decodes d enc D) :
    Decodes (d.times n) (fun l => l.flatMap enc) {l | l.length = n ∧ ∀ a ∈ l, a ∈ D} := by
  induction n with
  | zero =>
    rintro l ⟨hl, -⟩ rest
    rw [List.length_eq_zero_iff.mp hl]
    rfl
  | succ n ih =>
    rintro l ⟨hl, hmem⟩ rest
    cases l with
    | nil => exact absurd hl (by simp)
    | cons a l =>
      have htail : d.times n (l.flatMap enc ++ rest) = some (l, rest) :=
        ih ⟨by simpa using hl, fun b hb => hmem b (List.mem_cons_of_mem _ hb)⟩ rest
      show d.times (n + 1) ((a :: l).flatMap enc ++ rest) = _
      rw [List.flatMap_cons, List.append_assoc, Decoder.times, h.run (hmem a List.mem_cons_self)]
      show ((d.times n) (l.flatMap enc ++ rest)).bind _ = _
      rw [htail]
      rfl

/-! ## Running out -/

theorem takes_take : Takes (take n : Decoder β (List β)) n := by
  intro m a rest h
  unfold take at h
  split at h
  · next hle =>
    cases h
    rw [List.length_drop]
    omega
  · exact absurd h (by simp)

theorem Takes.mono (h : Takes d w) (hv : v ≤ w) : Takes d v := by
  intro m a rest hd
  have hlen := h hd
  omega

theorem Takes.bind (h : Takes d w) (hf : ∀ a, Takes (f a) v) : Takes (d >>= f) (w + v) := by
  intro m c rest hd
  obtain ⟨a, m', ha, hc⟩ := bind_eq_some.mp hd
  have hfirst := h ha
  have hsecond := hf a hc
  omega

theorem takes_pure : Takes (pure a : Decoder β α) 0 := by
  intro m b rest h
  cases h
  exact le_rfl

theorem Takes.times (h : Takes d w) : Takes (d.times n) (n * w) := by
  induction n with
  | zero =>
    rw [Nat.zero_mul]
    exact takes_pure
  | succ n ih =>
    have hrest : ∀ a, Takes (do
        let rest ← d.times n
        return a :: rest) (n * w + 0) := fun a => ih.bind fun _ => takes_pure
    have hwidth : (n + 1) * w = w + (n * w + 0) := by
      rw [Nat.succ_mul, Nat.add_zero, Nat.add_comm]
    rw [hwidth]
    exact h.bind hrest

/-- What takes more than there is fails. -/
theorem Takes.eq_none (h : Takes d w) (hlt : m.length < w) : d m = none := by
  cases hd : d m with
  | none => rfl
  | some p =>
    have hlen := h (show d m = some (p.1, p.2) from hd)
    omega

end Decoder

import Mathlib.Data.List.Basic
import Mathlib.Tactic.Ring

namespace Lsmdb.Binary

/-!
# Pieces that cover a range

Pieces with an offset and a length that follow one another without a gap.  If no piece is empty,
the range and the pieces to choose from determine the sequence: nothing can be left out, repeated
or moved (`Tiles.unique`).
-/

section Tiling
variable {α : Type*} (offset length : α → ℕ)

/-- The pieces follow one another from `start` to `stop`. -/
def Tiles : ℕ → ℕ → List α → Prop
  | start, stop, [] => start = stop
  | start, stop, p :: rest => offset p = start ∧ Tiles (start + length p) stop rest

variable {offset length}

theorem Tiles.le {start stop : ℕ} {ps : List α} (h : Tiles offset length start stop ps) :
    start ≤ stop := by
  induction ps generalizing start with
  | nil => exact Nat.le_of_eq h
  | cons p ps ih => exact Nat.le_of_add_right_le (ih h.2)

theorem Tiles.offset_ge {start stop : ℕ} {ps : List α} (h : Tiles offset length start stop ps)
    {p : α} (hp : p ∈ ps) : start ≤ offset p := by
  induction ps generalizing start with
  | nil => simp at hp
  | cons q ps ih =>
    rcases List.mem_cons.mp hp with rfl | hp
    · exact Nat.le_of_eq h.1.symm
    · exact Nat.le_of_add_right_le (ih h.2 hp)

theorem Tiles.offset_inj {start stop : ℕ} {ps : List α} (h : Tiles offset length start stop ps)
    (hpos : ∀ p ∈ ps, 0 < length p) {p q : α} (hp : p ∈ ps) (hq : q ∈ ps)
    (heq : offset p = offset q) : p = q := by
  induction ps generalizing start with
  | nil => simp at hp
  | cons x ps ih =>
    have hx := hpos x List.mem_cons_self
    have hfirst := h.1
    rcases List.mem_cons.mp hp with rfl | hp'
    · rcases List.mem_cons.mp hq with rfl | hq'
      · rfl
      · have := h.2.offset_ge hq'
        omega
    · rcases List.mem_cons.mp hq with rfl | hq'
      · have := h.2.offset_ge hp'
        omega
      · exact ih h.2 (fun y hy => hpos y (List.mem_cons_of_mem _ hy)) hp' hq'

/-- The step of `Tiles.unique`: the rest of the sequence, drawn from pieces known by their
    offsets. -/
private theorem tiles_unique_aux {whole : List α}
    (hinj : ∀ p ∈ whole, ∀ q ∈ whole, offset p = offset q → p = q)
    (hpos : ∀ p ∈ whole, 0 < length p) {start stop : ℕ} {ps qs : List α}
    (hps : Tiles offset length start stop ps) (hqs : Tiles offset length start stop qs)
    (hpw : ∀ p ∈ ps, p ∈ whole) (hqw : ∀ q ∈ qs, q ∈ whole) : qs = ps := by
  induction ps generalizing start qs with
  | nil =>
    cases qs with
    | nil => rfl
    | cons q qs =>
      have hstop : start = stop := hps
      have hle := hqs.2.le
      have hq := hpos q (hqw q List.mem_cons_self)
      omega
  | cons p ps ih =>
    cases qs with
    | nil =>
      have hstop : start = stop := hqs
      have hle := hps.2.le
      have hp := hpos p (hpw p List.mem_cons_self)
      omega
    | cons q qs =>
      obtain rfl : q = p := hinj q (hqw q List.mem_cons_self) p (hpw p List.mem_cons_self)
        (hqs.1.trans hps.1.symm)
      rw [ih hps.2 hqs.2 (fun x hx => hpw x (List.mem_cons_of_mem _ hx))
        (fun x hx => hqw x (List.mem_cons_of_mem _ hx))]

/-- **The pieces determine the sequence.** -/
theorem Tiles.unique {start stop : ℕ} {ps qs : List α} (hps : Tiles offset length start stop ps)
    (hpos : ∀ p ∈ ps, 0 < length p) (hqs : Tiles offset length start stop qs)
    (hmem : ∀ q ∈ qs, q ∈ ps) : qs = ps :=
  tiles_unique_aux (fun _ hp _ hq => hps.offset_inj hpos hp hq) hpos hps hqs (fun _ hp => hp) hmem

end Tiling

end Lsmdb.Binary

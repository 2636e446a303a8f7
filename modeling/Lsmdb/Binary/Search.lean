import Mathlib.Data.List.Basic

namespace Lsmdb.Binary

/-!
# Binary search

`sort.Search`: the smallest index at which a predicate holds, found by halving.  The predicate is
only asked at the places the search visits; that it finds the first place of all needs the
predicate to stay true once it is true.
-/

/-- The loop of the search over `[lo, hi)`. -/
def searchLoop (p : ℕ → Bool) (lo hi : ℕ) : ℕ :=
  if lo < hi then
    if p ((lo + hi) / 2) then searchLoop p lo ((lo + hi) / 2)
    else searchLoop p ((lo + hi) / 2 + 1) hi
  else lo
termination_by hi - lo

def search (n : ℕ) (p : ℕ → Bool) : ℕ := searchLoop p 0 n

/-- Whatever the predicate, the search ends between its bounds. -/
theorem searchLoop_le (p : ℕ → Bool) {lo hi : ℕ} (h : lo ≤ hi) : searchLoop p lo hi ≤ hi := by
  fun_induction searchLoop p lo hi with
  | case1 lo hi hlt hp ih => exact Nat.le_trans (ih (by omega)) (by omega)
  | case2 lo hi hlt hp ih => exact ih (by omega)
  | case3 lo hi hlt => exact h

theorem search_le (n : ℕ) (p : ℕ → Bool) : search n p ≤ n := searchLoop_le p (Nat.zero_le n)

/-- **The search finds the first place**: nothing below it, everything from it on. -/
theorem searchLoop_spec {p : ℕ → Bool} {n lo hi : ℕ} (hn : hi ≤ n)
    (hmono : ∀ i j, i ≤ j → j < n → p i = true → p j = true) (hlo : ∀ i < lo, p i = false)
    (hhi : ∀ i, hi ≤ i → i < n → p i = true) :
    (∀ i < searchLoop p lo hi, p i = false)
      ∧ ∀ i, searchLoop p lo hi ≤ i → i < n → p i = true := by
  fun_induction searchLoop p lo hi with
  | case1 lo hi hlt hp ih =>
      exact ih (by omega) hlo fun i hi' hin => hmono _ i hi' hin hp
  | case2 lo hi hlt hp ih =>
      refine ih hn (fun i hi' => ?_) hhi
      -- were it true here, it would be true at the middle
      by_contra hpi
      exact hp (hmono i _ (by omega) (by omega) (by simpa using hpi))
  | case3 lo hi hlt => exact ⟨hlo, fun i hi' hin => hhi i (by omega) hin⟩

theorem search_spec {n : ℕ} {p : ℕ → Bool}
    (hmono : ∀ i j, i ≤ j → j < n → p i = true → p j = true) :
    (∀ i < search n p, p i = false) ∧ ∀ i, search n p ≤ i → i < n → p i = true :=
  searchLoop_spec (Nat.le_refl n) hmono (by simp) (by omega)

/-- In a list the search finds what going through it finds. -/
theorem search_eq_findIdx {α : Type*} (xs : List α) (p : α → Bool)
    (hmono : xs.Pairwise fun a b => p a = true → p b = true) :
    search xs.length (fun i => (xs[i]?.map p).getD false) = xs.findIdx p := by
  have hget : ∀ i (hi : i < xs.length), (xs[i]?.map p).getD false = p xs[i] := by
    intro i hi
    simp [hi]
  have hle := search_le xs.length fun i => (xs[i]?.map p).getD false
  obtain ⟨hbelow, habove⟩ := search_spec (n := xs.length) (p := fun i => (xs[i]?.map p).getD false)
    (by
      intro i j hij hj hi
      rcases Nat.lt_or_eq_of_le hij with hlt | rfl
      · rw [hget i (by omega)] at hi
        rw [hget j hj]
        exact List.pairwise_iff_getElem.mp hmono i j (by omega) hj hlt hi
      · exact hi)
  generalize search xs.length (fun i => (xs[i]?.map p).getD false) = found at *
  have hidx : xs.findIdx p ≤ xs.length := List.findIdx_le_length
  rcases Nat.lt_trichotomy found (xs.findIdx p) with hlt | heq | hgt
  · have htrue := habove found (Nat.le_refl _) (by omega)
    rw [hget _ (by omega)] at htrue
    rw [List.not_of_lt_findIdx hlt] at htrue
    simp at htrue
  · exact heq
  · have hlt : xs.findIdx p < xs.length := by omega
    have hfalse := hbelow (xs.findIdx p) hgt
    rw [hget _ hlt, List.findIdx_getElem (w := hlt)] at hfalse
    simp at hfalse

end Lsmdb.Binary

import Mathlib.Logic.Function.Basic

/-!
# A cache over a store

`overlay cache store` is what a reader sees who asks the cache first. The
rules say how filling, changing, writing back and evicting an entry change
the view.
-/

namespace Lib

variable {κ α : Type} {cache : κ → Option α} {store : κ → α} {k : κ}

def overlay (cache : κ → Option α) (store : κ → α) : κ → α := fun k =>
  (cache k).getD (store k)

theorem overlay_cached {x : α} (h : cache k = some x) : overlay cache store k = x := by
  simp [overlay, h]

theorem overlay_uncached (h : cache k = none) : overlay cache store k = store k := by
  simp [overlay, h]

variable [DecidableEq κ]

theorem overlay_update (x : α) :
    overlay (Function.update cache k (some x)) store
      = Function.update (overlay cache store) k x := by
  funext j
  by_cases hj : j = k
  · subst hj
    simp [overlay]
  · simp [overlay, hj]

theorem overlay_store_cached {x : α} (h : cache k = some x) (y : α) :
    overlay cache (Function.update store k y) = overlay cache store := by
  funext j
  by_cases hj : j = k
  · subst hj
    simp [overlay, h]
  · simp [overlay, hj]

theorem overlay_store_uncached (h : cache k = none) (y : α) :
    overlay cache (Function.update store k y) = Function.update (overlay cache store) k y := by
  funext j
  by_cases hj : j = k
  · subst hj
    simp [overlay, h]
  · simp [overlay, hj]

theorem overlay_evict :
    overlay (Function.update cache k none) store
      = Function.update (overlay cache store) k (store k) := by
  funext j
  by_cases hj : j = k
  · subst hj
    simp [overlay]
  · simp [overlay, hj]

end Lib

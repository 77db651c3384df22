import Mathlib.Data.List.Chain
import Mathlib.Order.Basic

/-! A timer that fires when at least a period has passed since it last fired. The difference of two
readings may wrap around, so the clock need not be monotone. -/
namespace UdpSm.Lib
universe u
variable {τ : Type u} [Sub τ] [LE τ] [DecidableLE τ]

/-- The reading at which the timer last fired, after a reading `t`. -/
def tick (period last t : τ) : τ := if period ≤ t - last then t else last

def firings (period : τ) : τ → List τ → List τ
  | _, [] => []
  | last, t :: ts =>
    if period ≤ t - last then t :: firings period t ts else firings period last ts

variable {period last t : τ} {ts : List τ}

theorem firings_cons : firings period last (t :: ts) =
    (if period ≤ t - last then [t] else []) ++ firings period (tick period last t) ts := by
  rw [firings, tick]
  split_ifs <;> rfl

theorem foldl_tick : ts.foldl (tick period) last = (firings period last ts).getLastD last := by
  induction ts generalizing last with
  | nil => rfl
  | cons t ts ih =>
    rw [List.foldl_cons, ih, tick, firings]
    split_ifs
    · rw [List.getLastD_cons]
    · rfl

theorem firings_append (ts' : List τ) : firings period last (ts ++ ts') =
    firings period last ts ++ firings period (ts.foldl (tick period) last) ts' := by
  induction ts generalizing last with
  | nil => rfl
  | cons t ts ih => rw [List.cons_append, firings_cons, ih, firings_cons, List.foldl_cons, List.append_assoc]

theorem firings_spaced (ts : List τ) :
    (last :: firings period last ts).IsChain fun a b => period ≤ b - a := by
  induction ts generalizing last with
  | nil => exact .singleton _
  | cons t ts ih =>
    rw [firings]
    split_ifs with h
    · exact .cons_cons h ih
    · exact ih

/-- Right after a reading the last firing is less than a period behind it. -/
theorem tick_fresh (h : ¬period ≤ t - t) : ¬period ≤ t - tick period last t := by
  rw [tick]
  split_ifs with hfire
  · exact h
  · exact hfire

end UdpSm.Lib

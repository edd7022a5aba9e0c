import PriceBoard.Task.Process

/-!
# Time that passes

Whatever a process keeps when it settles is kept while time passes, whether or not
somebody waits for a result meanwhile.
-/

namespace PriceBoard

open Time (Nanos)

namespace Process

variable {σ ρ : Type} {p : Process σ} {P : σ → Prop}

theorem advance_keeps (keep : ∀ now s, P s → P (p.settle now s)) (now stop : Nanos) {s : σ} (h : P s) :
    P (p.advance now stop s) := by
  fun_induction Process.advance p now stop s with
  | case1 now s => exact keep now s h
  | case2 now s _ _ _ _ ih => exact ih (keep now s h)
  | case3 now s => exact keep now s h

section
variable {P : Nanos → σ → Prop} (wait : ∀ {now later s}, P now s → now ≤ later → P later s)
  (settle : ∀ {now s}, P now s → P now (p.settle now s))
include wait settle

/-- What holds at an instant holds at a later one, if it does not mind that time passes. -/
theorem advance_along {now stop : Nanos} (hle : now ≤ stop) {s : σ} (h : P now s) :
    P stop (p.advance now stop s) := by
  fun_induction Process.advance p now stop s with
  | case1 now s => exact wait (settle h) hle
  | case2 now s _ _ _ ht ih => exact ih (Nat.le_of_lt ht.2) (wait (settle h) (Nat.le_of_lt ht.1))
  | case3 now s => exact wait (settle h) hle

theorem await_along {result? : σ → Option ρ} {now stop : Nanos} {s : σ} (h : P now s) :
    P (p.await result? now stop s).2.1 (p.await result? now stop s).2.2 := by
  fun_induction Process.await p result? now stop s with
  | case1 => exact h
  | case2 now s _ _ s' => exact settle h
  | case3 now s _ _ s' _ _ _ ht ih => exact ih (wait (settle h) (Nat.le_of_lt ht.1))
  | case4 now s _ hlt s' => exact wait (settle h) (Nat.le_of_lt hlt)
  | case5 now s _ hlt s' => exact wait (settle h) (Nat.le_of_lt hlt)
  | case6 => exact h

end

end Process

end PriceBoard

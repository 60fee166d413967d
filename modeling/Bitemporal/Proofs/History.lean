import Bitemporal.History
import Bitemporal.Proofs.Refusal
import Bitemporal.Proofs.Timestamp

/-!
# The order of commits

The committed versions of a history are *in order* if their times do not decrease
(`History.InOrder`). Then a commit is accepted just when no committed version is later
(`checkOrder_eq_ok_iff`), and so the versions stay in order.
-/

namespace Bitemporal.History

variable {h : History} {versions : List Version} {version : Version} {time : Timestamp}

/-- The times of versions do not decrease. -/
def InOrder (versions : List Version) : Prop :=
  versions.Pairwise fun v w => v.stamp.time ≤ w.stamp.time

theorem inOrder_concat :
    InOrder (versions ++ [version]) ↔
      InOrder versions ∧ ∀ v ∈ versions, v.stamp.time ≤ version.stamp.time := by
  simp [InOrder, List.pairwise_append]

theorem lastTime?_concat (hc : h.committed = versions ++ [version]) :
    h.lastTime? = some version.stamp.time := by
  rw [lastTime?, hc, List.getLast?_concat]
  rfl

theorem le_of_checkOrder {last : Timestamp} (hlast : h.lastTime? = some last)
    (ho : h.checkOrder time = .ok ()) : last ≤ time := by
  rw [checkOrder, hlast] at ho
  dsimp only at ho
  split at ho
  · cases ho
  · next hlt => exact Std.not_lt.1 hlt

/-- A commit is accepted if no committed version is later. -/
theorem checkOrder_eq_ok_iff (hin : InOrder h.committed) :
    h.checkOrder time = .ok () ↔ ∀ v ∈ h.committed, v.stamp.time ≤ time := by
  rcases h.committed.eq_nil_or_concat with hnil | ⟨rest, last, hlast⟩
  · simp [checkOrder, lastTime?, hnil]
  · rw [List.concat_eq_append] at hlast
    have htime : h.lastTime? = some last.stamp.time := lastTime?_concat hlast
    rw [hlast, inOrder_concat] at hin
    constructor
    · intro ho v hv
      have hle := le_of_checkOrder htime ho
      rw [hlast] at hv
      rcases List.mem_append.1 hv with hv | hv
      · exact Std.le_trans (hin.2 v hv) hle
      · rwa [List.mem_singleton.1 hv]
    · intro hle
      rw [checkOrder, htime]
      dsimp only
      rw [if_neg]
      exact Std.not_lt.2 (hle last (by rw [hlast]; simp))

theorem InOrder.concat (hin : InOrder h.committed)
    (ho : h.checkOrder version.stamp.time = .ok ()) : InOrder (h.committed ++ [version]) :=
  inOrder_concat.2 ⟨hin, (checkOrder_eq_ok_iff hin).1 ho⟩

end Bitemporal.History

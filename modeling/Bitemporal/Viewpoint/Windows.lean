import Bitemporal.Filter
import Bitemporal.Lineage

/-!
# Windows on paths

A reader who stands on a path sees it up to a time, its *window*. Through each
origin of the path the reader sees the origin too, up to the time of the origin
or the window of the path, whichever is earlier; and so on along chains of
origins. If a path is seen in several ways, the widest window counts.

Windows are opened in rounds: each one passes the window of every declared path
on to its origins. A chain of origins that does not come back to one of its paths
has no more steps than there are declared paths, so that many rounds open every
window (`Lineage.windows`).
-/

namespace Bitemporal

/-- The window on each path that is seen. -/
abbrev Windows : Type := Table Nid Timestamp

namespace Windows

/-- Opens a path up to a time, unless it is open further. -/
def widen (w : Windows) (path : Nid) (time : Timestamp) : Windows :=
  match w.get? path with
  | some seen => if time ≤ seen then w else w.insert path time
  | none => w.insert path time

/-- The windows of a reader who stands at the given positions and looks no
    further. -/
def ofPositions (positions : List Position) : Windows :=
  positions.foldl (fun w p => widen w p.path p.time) .empty

end Windows

namespace Lineage

/-- Passes the window of a path on to its origins. -/
def passOn (w : Windows) (path : Nid) (origins : List Origin) : Windows :=
  match w.get? path with
  | none => w
  | some time => origins.foldl (fun w o => Windows.widen w o.path (min time o.time)) w

/-- Passes the window of every declared path on to its origins. -/
def passAll (l : Lineage) (w : Windows) : Windows :=
  l.origins.entries.foldl (fun w (path, origins) => passOn w path origins) w

/-- A number of rounds. -/
def passRounds (l : Lineage) : Nat → Windows → Windows
  | 0, w => w
  | n + 1, w => l.passRounds n (l.passAll w)

/-- The windows of a reader who stands at the given positions. -/
def windows (l : Lineage) (positions : List Position) : Windows :=
  l.passRounds l.size (Windows.ofPositions positions)

end Lineage

end Bitemporal

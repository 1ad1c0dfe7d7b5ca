import ResourceIndex.Iterator
import ResourceIndex.Log
import ResourceIndex.Table.Stats
import ResourceIndex.Text.Outline

set_option autoImplicit false

/-! # Reports

What a log shows of a table when asked for a report, the more of it the higher the level; and
the description of a table.
-/

namespace ResourceIndex

namespace Table

variable {ρ : Type}

/-- The entry with the size of a table. -/
def sizeEntry (t : Table ρ) : Log.Entry :=
  ⟨.info, "resource table", [("buckets", .count t.buckets.size), ("installed", .count t.size)]⟩

/-- The entry with the statistics, and a warning if the buckets do not hold all resources that
are installed. -/
def statsEntries (s : Stats) : List Log.Entry :=
  ⟨.info, "entries per bucket",
    [("mean", .real s.mean), ("std_dev", .real s.deviation), ("max", .count s.max)]⟩ ::
  if s.counted = s.installed then []
  else [⟨.warn, "installed count does not match bucket contents",
    [("counted", .count s.counted), ("installed", .count s.installed)]⟩]

/-- The entry of an installed resource. -/
def resourceEntry [Describe ρ] (r : ρ) : Log.Entry :=
  ⟨.info, "installed", [("resource", .text (describe r))]⟩

/-- The report on a table: its size, from level 1 on its statistics, and from level 3 on every
resource. -/
def report [Describe ρ] (t : Table ρ) (level : Nat) : Checked (List Log.Entry) := do
  let resources ← if 3 ≤ level then t.toList else pure []
  return t.sizeEntry :: (if 1 ≤ level then statsEntries t.stats else [])
    ++ resources.map resourceEntry

instance : Describe (Table ρ) where
  outline t := .node "ResourceTable"
    [("buckets", .atom (toString t.buckets.size)),
     ("installed", .atom (toString t.size)),
     ("next_split", .atom (toString t.geometry.nextSplit)),
     ("low_mask", .atom (toString t.geometry.lowMask))]

end Table

end ResourceIndex

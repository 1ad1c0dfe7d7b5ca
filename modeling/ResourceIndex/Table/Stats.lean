import ResourceIndex.Table.Basic
import ResourceIndex.Text.Fixed

set_option autoImplicit false

/-! # Statistics of a table

How evenly the resources are spread over the buckets: the mean number of entries in a bucket,
its standard deviation and its maximum. The lengths and their squares are machine words. The sums,
the quotients and the root are taken in floating point, which is exact for the sums as long as they
are small, and a variance that comes out negative counts as zero.
-/

namespace ResourceIndex

/-- The numbers of buckets, of resources installed and of entries counted, and how the entries
are spread. -/
structure Stats where
  buckets : Nat
  installed : Nat
  counted : Nat
  mean : Float
  deviation : Float
  max : Nat

namespace Stats

/-- The sum of the numbers of a list, in floating point. -/
def total (l : List Nat) : Float := l.foldl (fun sum n => sum + Float.ofNat n) 0

/-- The statistics of buckets with the given numbers of entries. -/
def ofLengths (installed : Nat) (lengths : List Nat) : Stats :=
  let buckets := Float.ofNat lengths.length
  let mean := total lengths / buckets
  let squares := total (lengths.map fun n => n * n % Nat.pow 2 64)
  let variance := squares / buckets - mean * mean
  { buckets := lengths.length
    installed := installed
    counted := (total lengths).toUInt64.toNat
    mean := mean
    deviation := (if 0 < variance then variance else 0).sqrt
    max := lengths.foldl Nat.max 0 }

/-- The statistics in one line of text, the fractions with three places. -/
def text (s : Stats) : String :=
  toString s.buckets ++ " buckets, " ++ toString s.installed
    ++ " resources installed; entries per bucket: mean = " ++ Text.fixed 3 s.mean
    ++ " std dev = " ++ Text.fixed 3 s.deviation ++ " max = " ++ toString s.max

end Stats

/-- The statistics of a table, by the stored lengths of its buckets. -/
def Table.stats {ρ : Type} (t : Table ρ) : Stats :=
  Stats.ofLengths t.size (t.buckets.toList.map Chain.word)

end ResourceIndex

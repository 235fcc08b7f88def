import NeKernel.FS.NeFSHistory

/-!
# What the counters count

`CatalogCount` and `FreeCatalog` follow the live catalogs as long as nothing is removed and
`FreeSectors` lasts: a removal takes its catalog out of `CatalogCount` and gives nothing back to
`FreeCatalog`, and there are more records to `FreeCatalog` than sectors for them.
-/

namespace NeKernel.NeFS

open ByteStore Scan Runs

variable {drv : DriveTrait} {d d₀ : Disk} {name partName : CString} {c₀ : Counters}
  {s s' s'' : History} {c : CatalogCall} {flags kind outLba startFree : Nat} {m' : Store}

/-- The counters have moved from `c₀` by what the history says, as natural numbers: `CatalogCount`
and `FreeCatalog` by the live catalogs, `FreeSectors` by the sectors of the stored records and one
for each removal. -/
structure Balanced (drv : DriveTrait) (c₀ : Counters) (s : History) : Prop where
  count : (counters drv s.disk.bytes).catalogCount = c₀.catalogCount + s.live.length
  free : (counters drv s.disk.bytes).freeCatalog + s.live.length = c₀.freeCatalog
  sectors : (counters drv s.disk.bytes).freeSectors +
    catalogSectors drv.fSectorSz * s.stored.length = c₀.freeSectors + s.removed

end NeKernel.NeFS

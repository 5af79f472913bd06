import Svfs.File.Query
import Svfs.File.Write

/-! Removing.

`erase` removes one block, `clear` all of them and the counters with them, and
`lruPunt` the least recently touched ones until the file is below a bound or one
block is left. The blocks that `erase` and `lruPunt` remove leave the map as they
are. -/
namespace Svfs
namespace World

def eraseMessage (fpos : Nat) : String :=
  "SparseVirtualFile::erase(): Non-existent file position " ++ toString fpos ++ " at start of block."

/-- `_erase_no_lock`. -/
def erase (fpos : Nat) (w : World) : Outcome Nat :=
  match w.file.svf.find? fpos with
  | none => .threw (.erase (eraseMessage fpos)) w
  | some v =>
    let ret := v.data.length
    let w := {w with file := {w.file with bytesTotal := sizeSub w.file.bytesTotal ret}}
    let w := w.eraseIter fpos
    .returned ret {w with file := {w.file with
      blocksErased := sizeAdd w.file.blocksErased 1
      bytesErased := sizeAdd w.file.bytesErased ret}}

/-- Every block goes, the first one first. -/
def discardAll (w : World) : World :=
  w.file.svf.entries.foldl (fun w iter => w.eraseIter iter.1) w

def clear (w : World) : World :=
  let w :=
    if w.file.config.overwriteOnExit then
      w.file.svf.entries.foldl (fun w iter => w.overwrite iter.1) w
    else w
  let w := w.discardAll
  {w with file := {w.file with
    bytesTotal := 0
    countWrite := 0
    countRead := 0
    bytesWrite := 0
    bytesRead := 0
    timeWrite := timePointMin
    timeRead := timePointMin
    blockTouch := 0
    blocksErased := 0
    bytesErased := 0
    blocksPunted := 0
    bytesPunted := 0}}

/-- The destructor. -/
def destroy (w : World) : World := w.clear

/-- `m_svf.size() > 1 and m_bytes_total >= cache_size_upper_bound`. -/
def mustPunt (cacheSizeUpperBound : Nat) (w : World) : Bool :=
  decide (1 < w.file.svf.size) && decide (cacheSizeUpperBound ≤ w.file.bytesTotal)

/-- The loop of `lru_punt` over the touches taken before it, oldest first. -/
def lruPuntLoop (cacheSizeUpperBound : Nat) : List (Nat × Nat) → Nat → World → Outcome Nat
  | [], ret, w => .returned ret w
  | iter :: rest, ret, w =>
    if w.mustPunt cacheSizeUpperBound then
      (w.erase iter.2).bind fun n w =>
      lruPuntLoop cacheSizeUpperBound rest (sizeAdd ret n)
        {w with file := {w.file with blocksPunted := sizeAdd w.file.blocksPunted 1}}
    else .returned ret w

def lruPunt (cacheSizeUpperBound : Nat) (w : World) : Outcome Nat :=
  (if w.mustPunt cacheSizeUpperBound then
      lruPuntLoop cacheSizeUpperBound w.file.blockTouches.entries 0 w
    else .returned 0 w).bind fun ret w =>
  .returned ret {w with file := {w.file with bytesPunted := sizeAdd w.file.bytesPunted ret}}

end World
end Svfs

import Svfs.File.State

/-! Writing.

`World.write` finds the block at or before the file position and either starts a
block of its own (`writeNewBlock`), puts a block before the ones it reaches
(`writeNewAppendOld`), or grows the block it falls on (`writeAppendNewToOld`).
The last two walk over the following blocks, which they compare with the new data
and take into the growing block; the walk is a recursion on those blocks, and the
map loses each of them as the walk passes it. What is done at a throw stays done.

Blocks ahead of the walk do not change before it reaches them, so it is handed
them as they stood at the start. A `push_back` loop bounded by a position or a
length is the `take` of that many bytes. -/
namespace Svfs
namespace World

/-! ### Steps of the write paths -/

/-- `m_bytes_total += n`. -/
def addBytes (w : World) (n : Nat) : World :=
  {w with file := {w.file with bytesTotal := sizeAdd w.file.bytesTotal n}}

/-- `iter->second.data.push_back` of each of `bytes`, `iter` at `k`. -/
def pushBack (w : World) (k : Nat) (bytes : List Byte) : World :=
  {w with file := {w.file with svf := w.file.svf.modify k (Val.pushBack bytes)}}

/-- `iter->second.block_touch = m_block_touch++`. -/
def touch (w : World) (k : Nat) : World :=
  {w with file := {w.file with
    svf := w.file.svf.modify k fun v => {v with blockTouch := w.file.blockTouch}
    blockTouch := touchSucc w.file.blockTouch}}

/-- `iter->second.data.assign(size, OVERWRITE_CHAR)`. -/
def overwrite (w : World) (k : Nat) : World :=
  {w with file := {w.file with svf := w.file.svf.modify k Val.overwrite}}

/-- `iter->second.data`, `iter` at `k`. -/
def blockData (w : World) (k : Nat) : List Byte :=
  match w.file.svf.find? k with
  | some v => v.data
  | none => []

/-- `m_svf.erase(iter)`: the node goes, with the bytes its buffer has by then. -/
def eraseIter (w : World) (k : Nat) : World :=
  { file := {w.file with svf := w.file.svf.erase k}
    log := .discard k (w.blockData k) :: w.log }

/-- A swallowed block: overwritten if so configured, and erased. -/
def swallow (w : World) (k : Nat) : World :=
  (if w.file.config.overwriteOnExit then w.overwrite k else w).eraseIter k

/-- Insert a new block; it is an error if the map does not grow. -/
def insertNew (caller : String) (fpos : Nat) (newValue : Val) (w : World) : Outcome Unit :=
  let svf := w.file.svf.insert fpos newValue
  let w' : World := {w with file := {w.file with svf := svf}}
  if svf.size ≠ 1 + w.file.svf.size then
    .threw (.write (caller ++ " Unable to insert new block at " ++ toString fpos)) w'
  else .returned () w'

/-! ### Comparing with what is held -/

/-- `std::memcmp(buffer + offset, data, len) != 0`. -/
def memcmpDiffers (buffer : List Byte) (offset len : Nat) (data : List Byte) : Bool :=
  (buffer.drop offset).take len != data.take len

def diffMessage (fpos : Nat) (given held : Byte) : String :=
  "SparseVirtualFile::write(): Difference at position " ++ toString fpos ++
    " '" ++ charText given ++ "' != '" ++ charText held ++ "'" ++
    " Ordinal " ++ toString (charOrdinal given) ++ " != " ++ toString (charOrdinal held)

/-- `_throw_diff`. It looks at one byte of the data and one of the block it is
pointed at, and throws if they differ; otherwise it runs into `assert(0)`, which
the shipped build leaves out, and returns. -/
def throwDiff (fpos : Nat) (data block : List Byte) (indexIter : Nat) (w : World) : Outcome Unit :=
  let w := w.emit (.index block.length indexIter)
  match data.head?, block[indexIter]? with
  | some given, some held =>
    if given ≠ held then .threw (.diff (diffMessage fpos given held)) w
    else .returned () (w.emit (.assertion false))
  | _, _ => .returned () (w.emit (.assertion false))

/-- The check made at three places: compare `len` bytes of `block` from `offset`
with the data, and on a difference have `_throw_diff` look at `probed`. -/
def diffCheck (fpos : Nat) (data block : List Byte) (offset len : Nat) (probed : List Byte)
    (indexIter : Nat) (w : World) : Outcome Unit :=
  if w.file.config.compareForDiff then
    let w := w.emit (.memcmp block.length offset len)
    if memcmpDiffers block offset len data then throwDiff fpos data probed indexIter w
    else .returned () w
  else .returned () w

/-! ### The three ways to write -/

/-- `_write_new_block`. The hint only guides the search for the place. -/
def writeNewBlock (fpos : Nat) (data : List Byte) (w : World) : Outcome Unit :=
  let w := w.emit (.assertion (w.file.svf.find? fpos).isNone)
  let newValue : Val := ⟨data, w.file.blockTouch⟩
  let w : World := {w with file := {w.file with blockTouch := touchSucc w.file.blockTouch}}
  (w.addBytes data.length).insertNew "SparseVirtualFile::_write_new_block():" fpos newValue

/-- The loop of `_write_new_append_old` over the blocks from `iter` on. `built` is
`new_value.data` so far; the result is that buffer, the data left and the file
position. -/
def prependLoop (fposEnd : Nat) : List (Nat × Val) → List Byte → Nat → List Byte → World →
    Outcome (List Byte × List Byte × Nat)
  | [], data, fpos, built, w => .returned (built, data, fpos) w
  | iter :: rest, data, fpos, built, w =>
    let gap := data.take (iter.1 - fpos)
    let data := data.drop (iter.1 - fpos)
    let fpos := sizeAdd fpos gap.length
    let delta := min data.length iter.2.data.length
    (diffCheck fpos data iter.2.data 0 delta iter.2.data 0 (w.addBytes gap.length)).bind fun _ w =>
    let built := built ++ gap ++ data.take delta
    let data := data.drop delta
    let fpos := sizeAdd fpos delta
    if fposEnd < filePositionImmediatlyAfterBlock iter then
      -- The data ends inside this block: its tail is kept.
      let w := w.emit (.assertion data.isEmpty)
      let w := w.emit (.copy iter.2.data.length delta (iter.2.data.length - delta))
      .returned (built ++ iter.2.data.drop delta, data, fpos) (w.swallow iter.1)
    else
      let w := w.swallow iter.1
      if (rest.head?.map Prod.fst).all (sizeAdd fpos data.length < ·) then
        -- No block is in the way of what is left.
        .returned (built ++ data, [], sizeAdd fpos data.length) (w.addBytes data.length)
      else prependLoop fposEnd rest data fpos built w

/-- `_write_new_append_old`, with the blocks from `iter` on. -/
def writeNewAppendOld (fpos : Nat) (data : List Byte) (iters : List (Nat × Val)) (w : World) :
    Outcome Unit :=
  let w := w.emit (.assertion (0 < data.length))
  let w := w.emit (.assertion ((iters.head?.map Prod.fst).any (fpos < ·)))
  let fposEnd := sizeAdd fpos data.length
  let blockTouch := w.file.blockTouch
  let w : World := {w with file := {w.file with blockTouch := touchSucc w.file.blockTouch}}
  (prependLoop fposEnd iters data fpos [] w).bind fun (newData, left, fpos') w =>
  (w.insertNew "SparseVirtualFile::write():" fpos ⟨newData, blockTouch⟩).bind fun _ w =>
  let w := w.emit (.assertion left.isEmpty)
  .returned () (w.emit (.assertion (fpos' == fposEnd)))

/-- The loop of `_write_append_new_to_old` over the blocks after the one at
`base`; the result is the data left. -/
def appendLoop (base : Nat) : List (Nat × Val) → List Byte → Nat → World → Outcome (List Byte)
  | [], newData, _, w =>
    if newData.isEmpty then .returned newData w
    else .returned [] ((w.pushBack base newData).addBytes newData.length)
  | next :: rest, newData, fpos, w =>
    if newData.isEmpty then .returned newData w
    else
      let gap := newData.take (next.1 - fpos)
      let newData := newData.drop (next.1 - fpos)
      let fpos := sizeAdd fpos gap.length
      let w := (w.pushBack base gap).addBytes gap.length
      if newData.isEmpty && decide (fpos < next.1) then .returned newData w
      else
        let w := w.emit (.subtract (filePositionImmediatlyAfterBlock next) fpos)
        let len := min newData.length (sizeSub (filePositionImmediatlyAfterBlock next) fpos)
        -- On a difference `_throw_diff` is pointed at the first byte of the base block.
        (if len = 0 then .returned () w
          else diffCheck fpos newData next.2.data 0 len (w.blockData base) 0 w).bind fun _ w =>
        let w := w.pushBack base (newData.take len)
        let newData := newData.drop len
        let w :=
          if newData.isEmpty then
            (w.emit (.copy next.2.data.length len (next.2.data.length - len))).pushBack base
              (next.2.data.drop len)
          else w
        appendLoop base rest newData (sizeAdd fpos len) (w.swallow next.1)

/-- `_write_append_new_to_old`, with the base block and the blocks after it. -/
def writeAppendNewToOld (fpos : Nat) (newData : List Byte) (base : Nat × Val)
    (rest : List (Nat × Val)) (w : World) : Outcome Unit :=
  let w := w.emit (.assertion (0 < newData.length))
  let w := w.emit (.assertion (base.1 ≤ fpos))
  let w := w.emit (.assertion (fpos ≤ filePositionImmediatlyAfterBlock base))
  let writeIndex := sizeSub fpos base.1
  let w := w.emit (.subtract fpos base.1)
  let w := w.emit (.subtract base.2.data.length writeIndex)
  let len := min newData.length (sizeSub base.2.data.length writeIndex)
  (diffCheck fpos newData base.2.data writeIndex len base.2.data writeIndex w).bind fun _ w =>
  (appendLoop base.1 rest (newData.drop len) (sizeAdd fpos len) w).bind fun left w =>
  .returned () ((w.touch base.1).emit (.assertion left.isEmpty))

/-! ### The dispatch -/

/-- What `write` does to the blocks. -/
def writeBlocks (fpos : Nat) (data : List Byte) (w : World) : Outcome Unit :=
  if w.file.svf.isEmpty || decide (w.file.filePositionImmediatlyAfterEnd < fpos) then
    w.writeNewBlock fpos data
  else
    match (w.file.svf.upperBound fpos).prev.after with
    | [] => .returned () w -- not reached: the map has a block
    | iter :: rest =>
      if fpos < iter.1 then
        if iter.1 ≤ sizeAdd fpos data.length then w.writeNewAppendOld fpos data (iter :: rest)
        else w.writeNewBlock fpos data
      else if filePositionImmediatlyAfterBlock iter < fpos then w.writeNewBlock fpos data
      else w.writeAppendNewToOld fpos data iter rest

/-- The counters a write that returned leaves behind. -/
def countWrite (now : Int) (len : Nat) (w : World) : World :=
  {w with file := {w.file with
    countWrite := sizeAdd w.file.countWrite 1
    bytesWrite := sizeAdd w.file.bytesWrite len
    timeWrite := now}}

/-- `write`, at the system time `now`. -/
def write (now : Int) (fpos : Nat) (data : List Byte) (w : World) : Outcome Unit :=
  (w.writeBlocks fpos data).bind fun _ w => .returned () (w.countWrite now data.length)

end World
end Svfs

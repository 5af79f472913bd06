import Mathlib.Data.List.Sort
import Svfs.File.State

/-! Asking and reading.

`has`, `need`, `needMany`, `integrity` and `blockTouches` leave the file alone;
`read` hands out bytes of one block and touches it. Each finds its block by a
search of its own. -/
namespace Svfs
namespace SparseVirtualFile

/-! ### has -/

def has (s : SparseVirtualFile) (fpos : Nat) (len : Nat) : Bool :=
  if s.svf.isEmpty then false
  else
    match (s.svf.upperBound fpos).prev.after with
    | [] => false -- not reached: the map has a block
    | iter :: _ =>
      decide (iter.1 ≤ fpos) && decide (sizeAdd fpos len ≤ filePositionImmediatlyAfterBlock iter)

/-! ### need -/

/-- `_amount_to_read`. -/
def amountToRead (seekRead : SeekRead) (greedyLength : Nat) : Nat :=
  if greedyLength < seekRead.2 then seekRead.2 else greedyLength

/-- One turn of the loop of `_minimise_seek_reads`. The vector is kept latest
first, so that its last element is at hand. -/
def minimiseStep (greedyLength : Nat) (newSeekReads : List SeekRead) (seekRead : SeekRead) :
    List SeekRead :=
  match newSeekReads with
  | [] => [(seekRead.1, amountToRead seekRead greedyLength)]
  | last :: rest =>
    if sizeAdd last.1 last.2 < seekRead.1 then
      (seekRead.1, amountToRead seekRead greedyLength) :: last :: rest
    else if sizeAdd last.1 last.2 < sizeAdd seekRead.1 seekRead.2 then
      (last.1, sizeAdd last.2 (sizeSub (sizeAdd seekRead.1 seekRead.2) (sizeAdd last.1 last.2))) :: rest
    else last :: rest

/-- `_minimise_seek_reads`. -/
def minimiseSeekReads (seekReads : List SeekRead) (greedyLength : Nat) : List SeekRead :=
  (seekReads.foldl (minimiseStep greedyLength) []).reverse

/-- The variables of `_need_no_lock`, and its log. -/
structure Need where
  fpos : Nat
  len : Nat
  ret : List SeekRead
  log : List Event

/-- `ret.emplace_back(fpos, len)`, and the demand is done. -/
def Need.finish (n : Need) : Need :=
  {n with ret := n.ret ++ [(n.fpos, n.len)], fpos := sizeAdd n.fpos n.len, len := 0}

/-- The part of the demand before `first` is needed. -/
def Need.gap (first : Nat) (n : Need) : Need :=
  let bytesAdded := sizeSub first n.fpos
  { fpos := sizeAdd n.fpos bytesAdded
    len := sizeSub n.len bytesAdded
    ret := n.ret ++ [(n.fpos, bytesAdded)]
    log := .subtract n.len bytesAdded :: .assertion (bytesAdded ≤ n.len) ::
      .subtract first n.fpos :: n.log }

/-- The walk of `_need_no_lock` over the blocks from `iter` on. -/
def needLoop : List (Nat × Val) → Need → Need
  | [], n => if n.len = 0 then n else n.finish
  | iter :: rest, n =>
    if n.len = 0 then n
    else if sizeAdd n.fpos n.len ≤ iter.1 then n.finish
    else
      let n := if n.fpos < iter.1 then n.gap iter.1 else n
      let n := {n with log := .assertion (n.fpos == iter.1) :: n.log}
      if sizeAdd n.fpos n.len ≤ filePositionImmediatlyAfterBlock iter then
        {n with fpos := sizeAdd n.fpos n.len, len := 0}
      else
        let size := iter.2.data.length
        needLoop rest
          {n with fpos := sizeAdd n.fpos size, len := sizeSub n.len size, log := .subtract n.len size :: n.log}

/-- What `_need_no_lock` does before the walk: a demand that ends before the first
block is done, and one that begins inside a block is cut at that block's end. -/
def needStart (cursor : OrderedMap.Cursor Nat Val) (fpos : Nat) (len : Nat) : Need :=
  let n : Need := ⟨fpos, len, [], []⟩
  match cursor.before.getLast? with
  | none =>
    match cursor.after with
    | [] => n -- not reached: the map has a block
    | iter :: _ => if sizeAdd fpos len ≤ iter.1 then n.finish else n
  | some prev =>
    let lastFpos := filePositionImmediatlyAfterBlock prev
    if fpos < lastFpos then
      {n with
        len := sizeSub len (min len (sizeSub lastFpos fpos))
        fpos := min (sizeAdd fpos len) lastFpos
        log := [.subtract len (min len (sizeSub lastFpos fpos)), .subtract lastFpos fpos] }
    else n

/-- `_need_no_lock`, with the log of its differences and assertions. -/
def needNoLock (s : SparseVirtualFile) (fpos : Nat) (len greedyLength : Nat) :
    List SeekRead × List Event :=
  if s.svf.isEmpty then ([(fpos, if len < greedyLength then greedyLength else len)], [])
  else
    let cursor := s.svf.upperBound fpos
    let n := needLoop cursor.after (needStart cursor fpos len)
    let log := .assertion (n.len == 0) :: .assertion (n.fpos == sizeAdd fpos len) :: n.log
    if greedyLength ≠ 0 ∧ len < greedyLength ∧ n.ret ≠ [] then
      (minimiseSeekReads n.ret greedyLength, log)
    else (n.ret, log)

def need (s : SparseVirtualFile) (fpos : Nat) (len : Nat) (greedyLength : Nat := 0) :
    List SeekRead :=
  (s.needNoLock fpos len greedyLength).1

/-- The order `std::sort` puts pairs in. -/
def seekReadLe (a b : SeekRead) : Bool := decide (a.1 < b.1) || (a.1 == b.1 && decide (a.2 ≤ b.2))

/-- `std::sort` of a vector of pairs. -/
def sortSeekReads (seekReads : List SeekRead) : List SeekRead :=
  seekReads.insertionSort fun a b => seekReadLe a b

def needMany (s : SparseVirtualFile) (seekReads : List SeekRead) (greedyLength : Nat := 0) :
    List SeekRead :=
  let seekReads := sortSeekReads seekReads
  if s.svf.isEmpty then minimiseSeekReads seekReads greedyLength
  else minimiseSeekReads (seekReads.flatMap fun r => s.need r.1 r.2 0) greedyLength

/-! ### integrity -/

/-- `ERROR_CONDITION`. -/
inductive ErrorCondition where
  | none
  | emptyBlock
  | adjacentBlocks
  | blocksOverlap
  | byteCountMismatch
  | duplicateBlock
  | duplicateBlockTouch
deriving DecidableEq, Repr

/-- The loop of `integrity`: `prev` is the position and size of the block before,
if there is one. Nothing is ever added to `block_touches`. -/
def integrityLoop (bytesTotal : Nat) (blockTouches : List Nat) :
    List (Nat × Val) → Option (Nat × Nat) → Nat → ErrorCondition
  | [], _, byteCount => if byteCount ≠ bytesTotal then .byteCountMismatch else .none
  | iter :: rest, prev, byteCount =>
    let size := iter.2.data.length
    let next := integrityLoop bytesTotal blockTouches rest (some (iter.1, size)) (sizeAdd byteCount size)
    if iter.2.data.isEmpty then .emptyBlock
    else
      match prev with
      | none => if blockTouches.contains iter.2.blockTouch then .duplicateBlockTouch else next
      | some (prevFpos, prevSize) =>
        if prevFpos = iter.1 ∧ prevSize = size then .duplicateBlock
        else if sizeAdd prevFpos prevSize = iter.1 then .adjacentBlocks
        else if iter.1 < sizeAdd prevFpos prevSize then .blocksOverlap
        else if blockTouches.contains iter.2.blockTouch then .duplicateBlockTouch
        else next

def integrity (s : SparseVirtualFile) : ErrorCondition :=
  integrityLoop s.bytesTotal [] s.svf.entries none 0

/-! ### block_touches -/

/-- `_block_touches_no_lock`: the map from touch to file position. -/
def blockTouches (s : SparseVirtualFile) : OrderedMap Nat Nat :=
  s.svf.entries.foldl (fun ret iter => ret.assign iter.2.blockTouch iter.1) OrderedMap.empty

/-- The size of the block that starts at `fpos`. -/
def blockSize (s : SparseVirtualFile) (fpos : Nat) : Except Exception Nat :=
  if s.svf.isEmpty then
    .error (.read "SparseVirtualFile::block_size(): Sparse virtual file is empty.")
  else
    match s.svf.find? fpos with
    | none => .error (.read ("SparseVirtualFile::block_size(): Requested file position " ++ toString fpos ++
        " is not at the start of a block"))
    | some v => .ok v.data.length

end SparseVirtualFile

/-! ### read -/

namespace World

def precedesMessage (fpos first : Nat) : String :=
  "SparseVirtualFile::read(): Requested file position " ++ toString fpos ++
    " precedes first block at " ++ toString first

def overrunMessage (fpos len first size offset : Nat) : String :=
  "SparseVirtualFile::read(): Requested position " ++ toString fpos ++ " length " ++ toString len ++
    " (end " ++ toString (sizeAdd fpos len) ++ ")" ++
    " overruns block that starts at " ++ toString first ++ " has size " ++ toString size ++
    " (end " ++ toString (sizeAdd first size) ++ ")." ++
    " Offset into block is " ++ toString offset ++
    " overrun is " ++ toString (sizeSub (sizeAdd offset len) size) ++ " bytes"

/-- `read` once the block and the offset into it are known. `memcpy` returns its
first argument, so the branch that tests for that is not there. Where `offset + len` comes
round the source copies from outside the block; the log says so, but what it copies is not
modelled, and the bytes handed out here are not those (`Command.InBuffers` excludes such a
read). -/
def readFrom (now : Int) (fpos : Nat) (len : Nat) (iter : Nat × Val) (offset : Nat) (w : World) :
    Outcome (List Byte) :=
  if iter.2.data.length < sizeAdd offset len then
    .threw (.read (overrunMessage fpos len iter.1 iter.2.data.length offset)) w
  else
    let w := w.emit (.copy iter.2.data.length offset len)
    .returned ((iter.2.data.drop offset).take len)
      {w with file := {w.file with
        svf := w.file.svf.modify iter.1 fun v => {v with blockTouch := w.file.blockTouch}
        blockTouch := touchSucc w.file.blockTouch
        bytesRead := sizeAdd w.file.bytesRead len
        countRead := sizeAdd w.file.countRead 1
        timeRead := now}}

/-- `read`, at the system time `now`. -/
def read (now : Int) (fpos : Nat) (len : Nat) (w : World) : Outcome (List Byte) :=
  if w.file.svf.isEmpty then
    .threw (.read "SparseVirtualFile::read(): Sparse virtual file is empty.") w
  else
    let iter := w.file.svf.lowerBound fpos
    let hit := iter.after.head?.map Prod.fst == some fpos
    if iter.before.isEmpty && !hit then
      .threw (.read (precedesMessage fpos ((iter.after.head?.map Prod.fst).getD 0))) w
    else
      match (if hit then iter else iter.prev).after with
      | [] => .threw (.read "") w -- not reached: the map has a block
      | b :: _ => w.readFrom now fpos len b (if hit then 0 else sizeSub fpos b.1)

end World
end Svfs

import Svfs.File.Command
import Svfs.Library.FiniteMap

/-! A system of sparse virtual files.

The class `SparseVirtualFileSystem` keeps files under their ids in a
`std::unordered_map`; every file it makes has its configuration. The order the map lists
its ids in is not told, so a function that walks over them is handed an order
(`SparseVirtualFileSystem.Keys`). -/
namespace Svfs

/-- A `std::string` that is an id: the bytes of a C string. -/
abbrev Id := List Byte

/-- The bytes of an id, streamed one by one. -/
def idText (id : Id) : String := String.join (id.map charText)

/-- The exceptions of the file system. The text that `outOfRange` takes from the
`std::out_of_range` is read by nothing. -/
inductive SystemException where
  | outOfRange
  | insert (message : String)
  | remove (message : String)
deriving DecidableEq

structure SparseVirtualFileSystem where
  svfs : Finmap fun _ : Id => World
  config : SparseVirtualFileConfig

namespace SparseVirtualFileSystem

/-- The constructor. -/
def new (config : SparseVirtualFileConfig := {}) : SparseVirtualFileSystem := ⟨∅, config⟩

def insert (id : Id) (modTime : Float) (s : SparseVirtualFileSystem) :
    Except SystemException SparseVirtualFileSystem :=
  if id ∈ s.svfs then
    .error (.insert ("SparseVirtualFileSystem::insert(): can not insert \"" ++ idText id ++ "\""))
  else .ok {s with svfs := s.svfs.insert id (World.new id modTime s.config)}

def remove (id : Id) (s : SparseVirtualFileSystem) : Except SystemException SparseVirtualFileSystem :=
  if id ∈ s.svfs then .ok {s with svfs := s.svfs.erase id}
  else .error (.remove ("SparseVirtualFileSystem::remove(): id \"" ++ idText id ++ "\" not found."))

/-- `at`, where it is read from. -/
def at? (id : Id) (s : SparseVirtualFileSystem) : Except SystemException World :=
  match s.svfs.lookup id with
  | some svf => .ok svf
  | none => .error .outOfRange

/-- What a call through the reference that `at` gives leaves in its place. -/
def set (id : Id) (svf : World) (s : SparseVirtualFileSystem) : SparseVirtualFileSystem :=
  {s with svfs := s.svfs.insert id svf}

def has (id : Id) (s : SparseVirtualFileSystem) : Bool := decide (id ∈ s.svfs)

/-- `num_bytes`: the order of a sum does not matter, also where it wraps. -/
def numBytes (s : SparseVirtualFileSystem) : Nat :=
  s.svfs.foldl (fun ret _ svf => sizeAdd ret svf.file.numBytes)
    (fun ret _ svf _ svf' => by simp only [sizeAdd_assoc, Nat.add_comm]) 0

/-- What `keys` may return: every id once, in some order. -/
def Keys (s : SparseVirtualFileSystem) (keys : List Id) : Prop := (keys : Multiset Id) = s.svfs.keys.val

instance (s : SparseVirtualFileSystem) (keys : List Id) : Decidable (s.Keys keys) :=
  inferInstanceAs (Decidable (_ = _))

section Keys
variable {s : SparseVirtualFileSystem} {keys : List Id}

theorem Keys.nodup (h : s.Keys keys) : keys.Nodup := by
  have hnodup := s.svfs.keys.nodup
  rwa [← h] at hnodup

theorem Keys.mem_iff (h : s.Keys keys) {id : Id} : id ∈ keys ↔ id ∈ s.svfs := by
  rw [← Multiset.mem_coe, h, Finset.mem_val, Finmap.mem_keys]

end Keys

/-- The bytes of all files. -/
def totalBytes (s : SparseVirtualFileSystem) : Nat := s.svfs.sumOver fun svf => svf.file.numBytes

theorem numBytes_eq (s : SparseVirtualFileSystem) : s.numBytes = s.totalBytes % 2 ^ 64 := by
  obtain ⟨svfs, config⟩ := s
  induction svfs using Finmap.induction_on with
  | H entries =>
    have hfold := Wrap.foldl_add (w := 64) (fun e : Σ _ : Id, World => e.2.file.numBytes) entries.entries
      (a := 0) (Nat.two_pow_pos 64)
    rw [Wrap.add, Nat.zero_add] at hfold
    exact hfold

end SparseVirtualFileSystem
end Svfs

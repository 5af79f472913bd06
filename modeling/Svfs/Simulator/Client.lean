import Svfs.Python.Methods

/-! The simulator.

A client works through the demands on a file with a `cSVF` in front of a server. What the
file lacks of a demand the client asks the server for, piece by piece, and writes to the
file, so that the file has the demand; then it reads it.

Times are left out: they are sums over what was transmitted and what the server was asked
for, which are kept, and over the calls of the file. So is what is logged, but for the
division by the time that was measured. -/
namespace Svfs

/-- The characters of an ASCII text. -/
def asciiText (s : String) : List Byte := s.toList.map fun c => .ofNat c.toNat

/-- The unit `K`, of an `int` that is not below zero. -/
def unsignedLongLong (n : Nat) : Nat := n % 2 ^ 64

theorem unsignedLongLong_of_lt {n : Nat} (h : n < 2 ^ 64) : unsignedLongLong n = n := Nat.mod_eq_of_lt h

inductive Direction where
  | clientToServer
  | serverToClient
deriving DecidableEq

/-- What has been transmitted, latest first. -/
structure Communications where
  transmitted : List (Direction × List Byte) := []

def Communications.transmit (dataBytes : List Byte) (direction : Direction) (comms : Communications) :
    Communications := ⟨(direction, dataBytes) :: comms.transmitted⟩

/-- Where the server's file stands, and what the server was asked for, latest first. -/
structure Server where
  filePosition : Nat := 0
  gets : List SeekRead := []

/-- The byte the server's file is made of. -/
def space : Byte := 32

def Server.get (filePosition length : Nat) (server : Server) : List Byte × Server :=
  (List.replicate length space, ⟨filePosition, (filePosition, length) :: server.gets⟩)

structure Client where
  comms : Communications := {}
  server : Server := {}

/-- The variables of `Client.run`, and how many calls were made of the file that tell it
the time: the n-th is made at `clock n`. -/
structure ClientRun where
  client : Client
  svf : CpSparseVirtualFile
  hasHits : Nat
  hasMisses : Nat
  minimalBytes : Nat
  calls : Nat

/-- What ends a run before its time. -/
inductive ClientError where
  | raised (e : PyError)
  | terminated (e : Exception)
  | assertionError
  | zeroDivisionError

/-- Go on from a call that returned; an error ends the run. -/
def PyOutcome.andThen {σ α β : Type} (o : PyOutcome σ α) (f : α → σ → Except ClientError β) :
    Except ClientError β :=
  match o.result with
  | .returned a => f a o.self
  | .raised e => .error (.raised e)
  | .terminated e => .error (.terminated e)

namespace ClientRun

/-- The message that asks the server for a piece. -/
def getMessage (piece : SeekRead) : List Byte :=
  asciiText ("GET File position " ++ toString piece.1 ++ " length " ++ toString piece.2)

/-- One turn of the loop over what is needed. -/
def fetch (clock : Nat → Int) (piece : SeekRead) (c : ClientRun) : Except ClientError ClientRun :=
  let comms := c.client.comms.transmit (getMessage piece) .clientToServer
  let (result, server) := c.client.server.get piece.1 piece.2
  let comms := comms.transmit result .serverToClient
  (c.svf.write (clock c.calls) piece.1 result).andThen fun _ svf =>
    .ok {c with client := ⟨comms, server⟩, svf := svf, calls := c.calls + 1}

def fetchAll (clock : Nat → Int) : List SeekRead → ClientRun → Except ClientError ClientRun
  | [], c => .ok c
  | piece :: rest, c => (c.fetch clock piece).bind (fetchAll clock rest)

/-- What is done so that the file has a demand. -/
def provide (clock : Nat → Int) (greedyLength fpos len : Nat) (c : ClientRun) : Except ClientError ClientRun :=
  if c.svf.hasData fpos len then .ok {c with hasHits := c.hasHits + 1}
  else
    (c.fetchAll clock (c.svf.need fpos len greedyLength)).bind fun c =>
      if c.svf.hasData fpos len then .ok {c with hasMisses := c.hasMisses + 1}
      else .error .assertionError

/-- One turn of the loop over the demands. -/
def turn (clock : Nat → Int) (greedyLength : Nat) (demand : SeekRead) (c : ClientRun) :
    Except ClientError ClientRun :=
  let fpos := unsignedLongLong demand.1
  let len := unsignedLongLong demand.2
  let c := {c with minimalBytes := c.minimalBytes + demand.2}
  (c.provide clock (unsignedLongLong greedyLength) fpos len).bind fun c =>
    (c.svf.read (clock c.calls) fpos len).andThen fun _ svf => .ok {c with svf := svf, calls := c.calls + 1}

def turns (clock : Nat → Int) (greedyLength : Nat) : List SeekRead → ClientRun → Except ClientError ClientRun
  | [], c => .ok c
  | demand :: rest, c => (c.turn clock greedyLength demand).bind (turns clock greedyLength rest)

end ClientRun

/-- `RunResult`, less the time. -/
structure RunResult where
  cacheHits : Nat
  cacheMisses : Nat
  minimalBytes : Nat
  numBytes : Int
  sizeof : Int
deriving DecidableEq

/-- The `id` of the file. -/
def clientId : List Byte := asciiText "ID"

theorem clientId_ne_nul : 0 ∉ clientId := by decide

/-- `Client.run` up to the loop. -/
def Client.start (client : Client) : ClientRun where
  client := client
  svf := ⟨World.new clientId 0, clientId_ne_nul⟩
  hasHits := 0
  hasMisses := 0
  minimalBytes := 0
  calls := 0

/-- The file is the one that `cSVF('ID')` makes. -/
theorem init_clientId : CpSparseVirtualFile.init (.str [73, 68]) = some ((⟨{}, {}⟩ : Client).start.svf) := rfl

/-- `Client.run`. Where no time has passed at all, the share of the time that each part took
can not be told. -/
def Client.run (clock : Nat → Int) (sizes : Sizes) (seekReads : List SeekRead) (greedyLength : Nat)
    (client : Client) : Except ClientError (RunResult × Client) :=
  (client.start.turns clock greedyLength seekReads).bind fun c =>
    if seekReads.isEmpty && c.client.comms.transmitted.isEmpty && c.client.server.gets.isEmpty then
      .error .zeroDivisionError
    else
      .ok (⟨c.hasHits, c.hasMisses, c.minimalBytes, c.svf.numBytes, c.svf.sizeOf sizes⟩, c.client)

/-- `run`, with a new client. -/
def runSimulator (clock : Nat → Int) (sizes : Sizes) (events : List SeekRead) (greedyLength : Nat) :
    Except ClientError (RunResult × Client) :=
  (⟨{}, {}⟩ : Client).run clock sizes events greedyLength

end Svfs

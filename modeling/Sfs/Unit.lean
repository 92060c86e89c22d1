import Sfs.Lib.Prog
import Sfs.Io
import Sfs.Entry

/-!
# The mounted unit

The functions of the file system are programs over the commands below: the
three transfer functions of `io.c`, the fields of `sfs_unit`, `sfs_errno`, the
clock, and the bytes an uninitialised local happens to hold.  `Sys.handle` is
what the commands do: it runs the transfer functions on the block device, with
its cache and its failures.

A program that does something undefined, or that never returns, is stuck.
-/

namespace Sfs

open Lib

/-- `sfs_unit` without its device.  Offsets are 64-bit patterns of `off_t`. -/
structure SfsUnit where
  time : Nat
  entryStart : Nat
  delBegin : Nat
  volIdent : Nat

/-! ## Commands -/

inductive Cmd where
  /-- `read_data(fs->bdev, offset, data, size)`. -/
  | readData (offset : Nat) (data : Mem) (size : Nat)
  /-- `write_data(fs->bdev, offset, data, size)`. -/
  | writeData (offset : Nat) (data : Mem) (size : Nat)
  /-- `copy_block(fs->bdev, src, dest, size)`. -/
  | copyBlock (src dest size : Nat)
  /-- `fs->bdev->block_size`. -/
  | blockSize
  /-- `fs->bdev->size`. -/
  | devSize
  /-- The fields of `fs`. -/
  | unit
  /-- An assignment to fields of `fs`. -/
  | setUnit (fs : SfsUnit)
  /-- `SET_ERRNO`. -/
  | setErrno (code : Nat)
  /-- `get_time()`. -/
  | getTime
  /-- The bytes of an uninitialised local variable. -/
  | uninit

/-- The type of the reply to a command. -/
def Cmd.Reply : Cmd → Type
  | readData .. => Nat × Mem
  | writeData .. => Nat
  | copyBlock .. => Int
  | blockSize | devSize | getTime => Nat
  | unit => SfsUnit
  | setUnit _ | setErrno _ => Unit
  | uninit => Mem

/-- A function of the file system. -/
abbrev SfsM := Prog Cmd Cmd.Reply

def issue (e : Cmd) : SfsM e.Reply := Prog.perform e

def readDataM (offset : Nat) (data : Mem) (size : Nat) : SfsM (Nat × Mem) :=
  issue (.readData offset data size)

def writeDataM (offset : Nat) (data : Mem) (size : Nat) : SfsM Nat :=
  issue (.writeData offset data size)

def copyBlockM (src dest size : Nat) : SfsM Int := issue (.copyBlock src dest size)

def blockSize : SfsM Nat := issue .blockSize

def devSize : SfsM Nat := issue .devSize

def unit : SfsM SfsUnit := issue .unit

def setUnit (fs : SfsUnit) : SfsM Unit := issue (.setUnit fs)

def setErrno (code : Nat) : SfsM Unit := issue (.setErrno code)

def getTime : SfsM Nat := issue .getTime

def uninit : SfsM Mem := issue .uninit

/-- `update`. -/
def update : SfsM Unit := do
  let now ← getTime
  let fs ← unit
  setUnit { fs with time := now }

/-- `fs->del_begin = off`. -/
def setDelBegin (off : Nat) : SfsM Unit := do
  let fs ← unit
  setUnit { fs with delBegin := off }

/-- `read_entry`: the size it returns, and the entry. -/
def readEntry (offset : Nat) (entr : Entry) : SfsM (Nat × Entry) :=
  if offset % indexEntrySize ≠ 0 then pure (minusOne, entr)
  else readDataM offset entr indexEntrySize

/-- `write_entry`. -/
def writeEntry (offset : Nat) (entr : Entry) : SfsM Nat :=
  if offset % indexEntrySize ≠ 0 then pure minusOne
  else writeDataM offset entr indexEntrySize

/-! ## Error codes -/

abbrev eNOENT : Nat := 2
abbrev eIO : Nat := 5
abbrev eNOMEM : Nat := 12
abbrev eFAULT : Nat := 14
abbrev eEXIST : Nat := 17
abbrev eINVAL : Nat := 22
abbrev eNOSPC : Nat := 28
abbrev eNOTEMPTY : Nat := 39
abbrev eTIMEDOUT : Nat := 110

/-! ## The state and the commands on it -/

/-- The device, the unit, and what the functions take from their surroundings:
the clock, and the bytes left on the stack. -/
structure Sys where
  dev : BlockDev
  fs : SfsUnit
  errno : Nat
  clock : Nat → Nat
  ticks : Nat
  stack : Mem

namespace Sys

/-- `SET_ERRNO(EIO)` on the failure paths of `io.c`. -/
def errnoAfter (s : Sys) (failed : Bool) : Nat := if failed then eIO else s.errno

/-- What the commands do. -/
def handle : Prog.Handler Cmd Cmd.Reply Sys
  | .readData offset data size, s =>
    let (ret, data, dev) := readData s.dev offset data size
    some ((ret, data), { s with dev := dev, errno := s.errnoAfter (ret == minusOne) })
  | .writeData offset data size, s =>
    let (ret, dev) := writeData s.dev offset data size
    some (ret, { s with dev := dev, errno := s.errnoAfter (ret == minusOne) })
  | .copyBlock src dest size, s =>
    let (ret, dev) := copyBlock s.dev src dest size
    some (ret, { s with dev := dev, errno := s.errnoAfter (ret == -1) })
  | .blockSize, s => some (s.dev.blockSize, s)
  | .devSize, s => some (s.dev.size, s)
  | .unit, s => some (s.fs, s)
  | .setUnit fs, s => some ((), { s with fs := fs })
  | .setErrno code, s => some ((), { s with errno := code })
  | .getTime, s => some (u64 (s.clock s.ticks), { s with ticks := s.ticks + 1 })
  | .uninit, s => some (s.stack, s)

/-- The run of a function from a state. -/
abbrev exec {α : Type} (s : Sys) (p : SfsM α) : Option (α × Sys) := p.exec handle s

/-- A function whose first part is known to return. -/
theorem exec_bind {α β : Type} {s s' : Sys} {p : SfsM α} {a : α} (h : s.exec p = some (a, s'))
    (f : α → SfsM β) : s.exec (p >>= f) = s'.exec (f a) := by
  rw [exec, Prog.exec_bind, show p.exec handle s = _ from h]
  rfl

end Sys

end Sfs

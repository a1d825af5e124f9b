import AmlaSandbox.Library.Lines
import AmlaSandbox.Library.Ring

/-!
# The audit buffer

A ring of bytes to which JSONL entries are appended and from which the host drains bytes. Where an
index or a subtraction of the code could panic, the model returns `none`.
-/

namespace AmlaSandbox.Audit

open Library

inductive LogLevel
  | debug
  | info
  | warn
  | error
deriving DecidableEq

def LogLevel.rank : LogLevel → Nat
  | .debug => 0
  | .info => 1
  | .warn => 2
  | .error => 3

/-- The entries of the log: their level, and the bytes of their JSON where they can be
serialized. -/
structure EntryFormat (E : Type*) where
  level : E → LogLevel
  toVec : E → Option (List UInt8)

/-- The separator of JSONL. -/
def newline : UInt8 := 10

/-- Compact JSON has no line breaks. -/
def EntryFormat.Compact {E : Type*} (format : EntryFormat E) : Prop :=
  ∀ e json, format.toVec e = some json → newline ∉ json

/-! ### Operations that may panic -/

def checkedSub (a b : Nat) : Option Nat := if b ≤ a then some (a - b) else none

def checkedMod (a b : Nat) : Option Nat := if b = 0 then none else some (a % b)

/-- `buffer[start..stop].to_vec()` -/
def readRange (buffer : List UInt8) (start stop : Nat) : Option (List UInt8) :=
  if start ≤ stop ∧ stop ≤ buffer.length then some ((buffer.drop start).take (stop - start))
  else none

/-- `buffer[start..start + src.len()].copy_from_slice(src)` -/
def copyAt (buffer : List UInt8) (start : Nat) (src : List UInt8) : Option (List UInt8) :=
  if start + src.length ≤ buffer.length then some (Ring.splice buffer start src) else none

/-- Ring buffer for streaming audit log entries. The sequence number wraps as in a release build. -/
structure AuditBuffer where
  buffer : List UInt8
  writePos : Nat := 0
  readPos : Nat := 0
  seq : UInt64 := 0
  level : LogLevel := .info
deriving DecidableEq

namespace AuditBuffer

def withCapacity (capacity : Nat) : AuditBuffer := { buffer := List.replicate capacity 0 }

variable (b : AuditBuffer)

def capacity : Nat := b.buffer.length

/-- The loop of `write_bytes`; the fuel bounds its turns. -/
def writeLoop (capacity : Nat) : Nat → List UInt8 → Nat → List UInt8 → Option (List UInt8 × Nat)
  | _, buffer, pos, [] => some (buffer, pos)
  | 0, _, _, _ :: _ => none
  | fuel + 1, buffer, pos, remaining => do
    let space ← checkedSub capacity pos
    let toWrite := min remaining.length space
    let buffer ← copyAt buffer pos (remaining.take toWrite)
    let pos ← checkedMod (pos + toWrite) capacity
    writeLoop capacity fuel buffer pos (remaining.drop toWrite)

/-- Writing from `oldWrite` to `newWrite` would overwrite the read position. -/
def wouldOverwrite (oldWrite newWrite read : Nat) : Bool :=
  if oldWrite ≤ newWrite then read > oldWrite && read ≤ newWrite
  else read > oldWrite || read ≤ newWrite

/-- The loop of `find_next_entry`, with the number of positions left to check. -/
def findNextLoop (buffer : List UInt8) (writePos : Nat) : Nat → Nat → Option Nat
  | 0, _ => some writePos
  | left + 1, pos => do
    let byte ← buffer[pos]?
    let next ← checkedMod (pos + 1) buffer.length
    if byte = newline then some next else findNextLoop buffer writePos left next

/-- The next entry start after a position. -/
def findNextEntry (start : Nat) : Option Nat :=
  findNextLoop b.buffer b.writePos b.capacity start

/-- Write bytes, advancing the read position behind what is overwritten. -/
def writeBytes (data : List UInt8) : Option AuditBuffer := do
  let (buffer, newWritePos) ← writeLoop b.capacity data.length b.buffer b.writePos data
  let b' := { b with buffer }
  let readPos ←
    if wouldOverwrite b.writePos newWritePos b.readPos then b'.findNextEntry newWritePos
    else some b.readPos
  some { b' with readPos, writePos := newWritePos }

section Append

variable {E : Type*} (format : EntryFormat E)

/-- The line of an entry that `append` accepts. -/
def accepts (e : E) : Option (List UInt8) :=
  if (format.level e).rank < b.level.rank then none
  else
    match format.toVec e with
    | none => none
    | some json =>
      let json := json ++ [newline]
      if json.length > b.capacity / 4 then none else some json

/-- Append a log entry, unless it is filtered by level or too large. -/
def append (e : E) : Option (Bool × AuditBuffer) :=
  match b.accepts format e with
  | none => some (false, b)
  | some json => do
    let b' ← b.writeBytes json
    some (true, { b' with seq := b'.seq + 1 })

end Append

/-- Number of bytes available for reading. -/
def available : Option Nat :=
  if b.writePos ≥ b.readPos then checkedSub b.writePos b.readPos
  else do
    let rest ← checkedSub b.capacity b.readPos
    some (rest + b.writePos)

/-- Drain available bytes into an output buffer of `outLen` bytes. -/
def drain (outLen : Nat) : Option (List UInt8 × AuditBuffer) := do
  let available ← b.available
  if available = 0 ∨ outLen = 0 then some ([], b)
  else
    let toRead := min available outLen
    let rest ← checkedSub b.capacity b.readPos
    let firstChunk := min rest toRead
    let first ← readRange b.buffer b.readPos (b.readPos + firstChunk)
    let readPos ← checkedMod (b.readPos + firstChunk) b.capacity
    if firstChunk < toRead ∧ readPos = 0 then
      let secondChunk := toRead - firstChunk
      let second ← readRange b.buffer 0 secondChunk
      some (first ++ second, { b with readPos := secondChunk })
    else some (first, { b with readPos })

end AuditBuffer

end AmlaSandbox.Audit

import Miniraft.Theory.Files

/-!
# The file behind the snapshots

`FileMoF` of `raft/src/persistence.rs`, with the `BufWriter` and the `write_all` of the standard
library that it rests on, and the lines of the Raft-message loop in `raft/src/lib.rs` that persist a
snapshot. What is printed to stderr is left out.
-/

namespace Miniraft

open Calls (Method)
open Calls.Method (perform attempt onPart discard)
open Files (Call ErrorKind Path)

/-- An I/O error, or a panic of the thread. -/
inductive Fault where
  | io (e : ErrorKind)
  | panic
  deriving DecidableEq

variable {σ : Type}

/-! ## Buffered writers -/

/-- `BufWriter<File>`: an open file, and what is still to be written to it. -/
structure BufWriter where
  handle : ℕ
  buf : List UInt8

namespace BufWriter

/-- `DEFAULT_BUF_SIZE` -/
def capacity : ℕ := 8 * 1024

/-- The loop of `flush_buf`, for at most `fuel` writes. A byte or more is written each time. -/
def flushBuf : ℕ → Method Call Fault BufWriter Unit
  | 0 => return ()
  | fuel + 1 => do
    let w ← get
    if w.buf = [] then return ()
    else
      let n ← attempt .io (.write w.handle w.buf)
      if n = 0 then throw (.io .writeZero)
      else
        set { w with buf := w.buf.drop n }
        flushBuf fuel

/-- The file has no buffer of its own. -/
def flush : Method Call Fault BufWriter Unit := do flushBuf (← get).buf.length

/-- `write_to_buffer_unchecked` -/
def writeToBuffer (bytes : List UInt8) : Method Call Fault BufWriter ℕ := do
  let w ← get
  set { w with buf := w.buf ++ bytes }
  return bytes.length

/-- The buffer is flushed where there is no room in it for the bytes. -/
def makeRoom (bytes : List UInt8) : Method Call Fault BufWriter Unit := do
  let w ← get
  if capacity - w.buf.length < bytes.length then flush else return ()

def writeCold (bytes : List UInt8) : Method Call Fault BufWriter ℕ := do
  makeRoom bytes
  let w ← get
  if capacity ≤ bytes.length then attempt .io (.write w.handle bytes) else writeToBuffer bytes

def write (bytes : List UInt8) : Method Call Fault BufWriter ℕ := do
  let w ← get
  if bytes.length < capacity - w.buf.length then writeToBuffer bytes else writeCold bytes

/-- Dropping a writer flushes it, and ignores if this fails. -/
def drop (w : BufWriter) : Method Call Fault σ Unit := discard flush w

end BufWriter

/-! ## Move on flush -/

/-- `char::from_digit(n, 16)` -/
def fromDigit (n : ℕ) : Option Char := if n < 16 then some n.digitChar else none

/-- The name for these random numbers. -/
def tempName (ns : List ℕ) : Option String :=
  (ns.mapM fromDigit).map fun cs => "raft-persistence-" ++ String.ofList cs

/-- A file with "Move on `Flush`" semantics. -/
structure FileMoF where
  target : Path
  inner : Path × BufWriter

namespace FileMoF

/-- `rand::rand() * 16.0`, cut to an integer, is 16 where `rand` gives 1.0: "is within bounds" -/
def generateName : Method Call Fault σ String := do
  match ← perform (.draw 32) with
  | none => throw .panic
  | some ns =>
    match tempName ns with
    | none => throw .panic
    | some s => return s

/-- `new_backing`, with so many attempts left. -/
def newBacking (tempDir : String) : ℕ → Method Call Fault σ (Path × BufWriter)
  | 0 => throw (.io .invalidFilename)
  | attempts + 1 => do
    let path := ⟨tempDir, ← generateName⟩
    match ← perform (.createNew path) with
    | .ok handle => return (path, ⟨handle, []⟩)
    | .error _ => newBacking tempDir attempts

def new (tempDir : String) (path : Path) : Method Call Fault Unit FileMoF := do
  let inner ← newBacking tempDir 3
  return ⟨path, inner⟩

def onWriter {α : Type} (m : Method Call Fault BufWriter α) : Method Call Fault FileMoF α :=
  onPart (fun f => f.inner.2) (fun w f => { f with inner := (f.inner.1, w) }) m

def write (bytes : List UInt8) : Method Call Fault FileMoF ℕ := onWriter (BufWriter.write bytes)

/-- `Write::write_all`, for at most `fuel` writes. -/
def writeAll : ℕ → List UInt8 → Method Call Fault FileMoF Unit
  | 0, _ => return ()
  | fuel + 1, bytes =>
    if bytes = [] then return ()
    else do
      let n ← write bytes
      if n = 0 then throw (.io .writeZero) else writeAll fuel (bytes.drop n)

/-- Flushing to the target means renaming to it. -/
def flush : Method Call Fault FileMoF Unit := do
  onWriter BufWriter.flush
  let f ← get
  attempt .io (.syncAll f.inner.2.handle)
  attempt .io (.rename f.inner.1 f.target)
  -- The path of the temporary file has a parent.
  attempt .io (.openDir f.inner.1.dir)
  attempt .io (.syncDir f.inner.1.dir)

/-- `rewind` has no use for the previous file any more. -/
def removeBacking : Method Call Fault FileMoF Unit := do
  match ← perform (.removeFile (← get).inner.1) with
  | .ok () | .error .notFound => return ()
  | .error e => throw (.io e)

/-- Creates a fresh temporary file. The assignment to `inner` drops the old writer. -/
def rewind (tempDir : String) : Method Call Fault FileMoF Unit := do
  removeBacking
  let inner ← newBacking tempDir 3
  let f ← get
  f.inner.2.drop
  set { f with inner }

/-- A snapshot that is these bytes: rewind, write, flush, each only if those before succeeded. -/
def cycle (tempDir : String) (bytes : List UInt8) : Method Call Fault FileMoF Unit := do
  rewind tempDir
  writeAll bytes.length bytes
  flush

/-- A panic drops what the thread owns. -/
def unwind (e : Fault) : Method Call Fault FileMoF Unit := do
  let f ← get
  if e = .panic then
    f.inner.2.drop
    throw e
  else throw e

/-- How the Raft-message loop persists a snapshot. -/
def persistCycle (tempDir : String) (bytes : List UInt8) : Method Call Fault FileMoF Unit :=
  tryCatch (cycle tempDir bytes) unwind

end FileMoF

end Miniraft

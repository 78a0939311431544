/-
The watcher: one event per burst of file activity (`domain/debounce.py`), and
which of the paths that change below a directory are of its source
(`application/watcher.py`).

The clock is passed in. `_last` is a dictionary, so a key that is set again
keeps its place. A path is its parts, absolute, in a tree that has no links.
-/
import Mathlib.Data.List.Basic
import MemoryOS.Corpus.Filesystem

namespace MemoryOS

-- ======= the state

/-- `Debounce`. -/
structure Debounce where
  window : Int
  last : List (String × Timestamp) := []
deriving DecidableEq, Repr

/-- `_last.get(key)`. -/
def Debounce.get (d : Debounce) (key : String) : Option Timestamp :=
  d.last.lookup key

/-- `_prune`: keys whose window has passed are forgotten. -/
def Debounce.prune (d : Debounce) (now : Timestamp) : Debounce :=
  let cutoff := now - d.window
  { d with last := d.last.filter fun entry => !decide (entry.2 ≤ cutoff) }

/-- `_last[key] = now`. -/
def Debounce.set (d : Debounce) (key : String) (now : Timestamp) : Debounce :=
  { d with last :=
      if d.last.any fun entry => entry.1 == key then
        d.last.map fun entry => if entry.1 == key then (key, now) else entry
      else d.last ++ [(key, now)] }

/-- `should_emit`, with what it leaves behind. -/
def Debounce.shouldEmit (d : Debounce) (key : String) (now : Timestamp) :
    Bool × Debounce :=
  let d := d.prune now
  match d.get key with
  | none => (true, d.set key now)
  | some last =>
    if now - last < d.window then (false, d) else (true, d.set key now)

/-- `tracked`. -/
def Debounce.tracked (d : Debounce) : Nat := d.last.length

-- =========== a run

/-- A key that is touched at a time. -/
structure Touch where
  key : String
  time : Timestamp
deriving DecidableEq, Repr

/-- A touch, and whether it was emitted. -/
structure Decided extends Touch where
  emitted : Bool
deriving DecidableEq, Repr

/-- The touches one after another, each with what `should_emit` says. -/
def Debounce.run (d : Debounce) : List Touch → List Decided
  | [] => []
  | touch :: rest =>
    let answer := d.shouldEmit touch.key touch.time
    ⟨touch, answer.1⟩ :: answer.2.run rest

end MemoryOS

namespace MemoryOS

namespace Watcher

open Filesystem

-- ========= the key

/-- `Path.resolve` where there are no links: `..` steps back. -/
def resolve (path : List String) : List String :=
  path.foldl
    (fun done part =>
      if part = ".." then done.dropLast
      else if part = "." then done
      else done ++ [part])
    []

/-- `PurePath.as_posix` of a relative path. -/
def asPosix (parts : List String) : String :=
  if parts.isEmpty then "." else "/".intercalate parts

/-- `external_key_for`: the key of a path, unless it is outside the root. -/
def externalKeyFor (path root : List String) : Option String :=
  let path := resolve path
  let root := resolve root
  if root.isPrefixOf path then some (asPosix (path.drop root.length)) else none

-- ====== the filter

/-- `is_watchable`. -/
def isWatchable (externalKey : String) (includes excludes : List String) :
    Bool :=
  if matchesAny externalKey excludes then false
  else matchesAny externalKey includes

/-- The first step of `WatchTree.handle`: whether a path goes on to the
debounce. -/
def accepts (config : FilesystemConfig) (path root : List String) : Bool :=
  match externalKeyFor path root with
  | none => false
  | some key => isWatchable key config.includes config.excludes

end Watcher

end MemoryOS

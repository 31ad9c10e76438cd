import Mathlib.Logic.Function.Basic
import Xv6.Lib.Bytes

/-!
# Committing and recovering (`log.c`)

The disk is a function from block numbers to blocks. What `commit` and `recover_from_log` do to it is the list of the blocks that
they write with `bwrite`; a crash keeps a first part of it. A block that is read has its contents on the disk, except for the
modified blocks, which are pinned in the buffer cache.
-/

namespace Xv6.Log

open Bytes (Mem)

abbrev Writes := List (Nat × Mem)

def apply (d : Nat → Mem) : Writes → Nat → Mem
  | [] => d
  | w :: ws => apply (Function.update d w.1 w.2) ws

def headN (b : Mem) : Nat := Bytes.loadLE b 0 4

def headBlock (b : Mem) (i : Nat) : Nat := Bytes.loadLE b (4 + 4 * i) 4

def readHead (b : Mem) : List Nat := (List.range (headN b)).map (headBlock b)

def putBlocks (b : Mem) (i : Nat) : List Nat → Mem
  | [] => b
  | x :: l => putBlocks (Bytes.storeLE b (4 + 4 * i) 4 x) (i + 1) l

def writeHead (b : Mem) (l : List Nat) : Mem := putBlocks (Bytes.storeLE b 0 4 l.length) 0 l

def installTrans (d : Nat → Mem) (start i : Nat) : List Nat → Writes
  | [] => []
  | b :: l => (b, d (start + i + 1)) :: installTrans (Function.update d b (d (start + i + 1))) start (i + 1) l

def writeLog (cache : Nat → Mem) (start i : Nat) : List Nat → Writes
  | [] => []
  | b :: l => (start + i + 1, cache b) :: writeLog cache start (i + 1) l

def headWrite (d : Nat → Mem) (start : Nat) (l : List Nat) : Writes := [(start, writeHead (d start) l)]

def recoverFromLog (d : Nat → Mem) (start : Nat) : Writes :=
  let w1 := installTrans d start 0 (readHead (d start))
  w1 ++ headWrite (apply d w1) start []

def commit (d cache : Nat → Mem) (start : Nat) (l : List Nat) : Writes :=
  if l.length > 0 then
    let w1 := writeLog cache start 0 l
    let d1 := apply d w1
    let w2 := headWrite d1 start l
    let d2 := apply d1 w2
    let w3 := installTrans d2 start 0 l
    w1 ++ (w2 ++ (w3 ++ headWrite (apply d2 w3) start []))
  else []

def crashes (d : Nat → Mem) (start : Nat) : List Nat → Nat → Mem
  | [] => d
  | k :: ks => crashes (apply d ((recoverFromLog d start).take k)) start ks

end Xv6.Log

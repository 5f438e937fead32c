import RedisIR.Lib.CLib
import RedisIR.Lib.Endian
import RedisIR.Lib.Machine

/-! The failure simulation (`instant_recovery.c`). A start-up schedules a restart of the
server as long as a counter file says so; the files are all that one process leaves to the
next. Opening a file for writing and removing one succeed. -/

namespace RedisIR.Restarts

open CLib Endian

abbrev Dir := String → Option Bytes

/-- A file that is not there reads as -1, one that is too short for an `int` as 0. -/
def readFile (dir : Dir) (filename : String) : ℤ :=
  match dir filename with
  | none => -1
  | some bytes => if 4 ≤ bytes.length then intVal (bytes.take 4) else 0

/-- `fwrite` is given the size of an `unsigned long long`: the `int` is followed by the bytes
that lie above it in memory. -/
def writeFile (above : Bytes) (dir : Dir) (filename : String) (counter : ℤ) : Dir :=
  Function.update dir filename (some (intBytes 4 counter ++ above))

def removeFile (dir : Dir) (filename : String) : Dir := Function.update dir filename none

def DATABASE_PRELOAD_FILE : String := "temp_ir_files/preloadSystemfile.dat"
def RESTART_COUNTER : String := "temp_ir_files/restartCounter.dat"
def RESTART_COUNTER2 : String := "temp_ir_files/restartCounter2.dat"
def RESTART_COUNTER3 : String := "temp_ir_files/restartCounter2.dat"

/-- What `restartAfterBechmarking` and `restartSystem` do: the files, and whether a restart
is scheduled. -/
def countRestart (filename : String) (times : ℤ) (above : Bytes) (dir : Dir) : Dir × Bool :=
  if times = 0 then (dir, false)
  else
    let counter := readFile dir filename
    if counter = 0 then (removeFile dir filename, false)
    else
      let counter := if counter = -1 then times - 1 else if 0 < counter then counter - 1 else counter
      (writeFile above dir filename counter, true)

def restartAfterBechmarking (restart_after_benchmarking : ℤ) : Bytes → Dir → Dir × Bool :=
  countRestart RESTART_COUNTER restart_after_benchmarking

def restartSystem (number_restarts_after_time : ℤ) : Bytes → Dir → Dir × Bool :=
  countRestart RESTART_COUNTER2 number_restarts_after_time

def preloadDatabaseAndRestart (preload_database_and_restart number_restarts_after_preloading : ℤ) (above : Bytes)
    (dir : Dir) : Dir × Bool :=
  if preload_database_and_restart = 0 then (dir, false)
  else
    let counter := readFile dir DATABASE_PRELOAD_FILE
    if counter = 0 then (removeFile dir DATABASE_PRELOAD_FILE, false)
    else
      let dir :=
        if counter = -1 then writeFile above dir DATABASE_PRELOAD_FILE (number_restarts_after_preloading - 1)
        else writeFile above (removeFile dir DATABASE_PRELOAD_FILE) DATABASE_PRELOAD_FILE (counter - 1)
      if 0 < number_restarts_after_preloading then (dir, true) else (removeFile dir DATABASE_PRELOAD_FILE, false)

/-- `replica`: the replication is on and the replica of the indexed log is there. -/
def corruptIndexedLog (log_corruption : ℤ) (replica : Bool) (above : Bytes) (dir : Dir) : Dir × Bool :=
  if log_corruption = 0 then (dir, false)
  else if replica then (dir, true)
  else if readFile dir RESTART_COUNTER3 = -1 then (writeFile above dir RESTART_COUNTER3 0, true)
  else (removeFile dir RESTART_COUNTER3, false)

/-- The timed restart and the one after a corruption that a start-up schedules. -/
def startUp (times log_corruption : ℤ) (above : Bytes × Bytes) (dir : Dir) : Dir × (Bool × Bool) :=
  let timed := restartSystem times above.1 dir
  let corrupted := corruptIndexedLog log_corruption false above.2 timed.1
  (corrupted.1, timed.2, corrupted.2)

/-- A start-up, if the one before has scheduled a restart. -/
def restarted {A O : Type} (again : O → Bool) (step : A → Dir → Dir × O) (above : A) (s : Dir × Bool) :
    (Dir × Bool) × List O :=
  if s.2 then ((((step above s.1).1, again (step above s.1).2)), [(step above s.1).2]) else (s, [])

end RedisIR.Restarts

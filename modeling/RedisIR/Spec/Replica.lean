import RedisIR.Spec.Durability

/-! A server with `indexedlog_replicated` on, over many starts. The start-up indexer writes
to both indexed logs, the online indexer to the first one only. -/

namespace RedisIR

open CLib

structure Site where
  log : List LogCmd
  files : Files

/-- What happens to the files: a command is logged, the start-up indexer runs, the online
indexer hands over a queue, with a stop signal after `stop` of its nodes if there is one,
or the server shuts down. -/
inductive SiteEvent
  | append (c : LogCmd)
  | startup
  | batch (ri : List RecordToIndex) (stop : Option ℕ)
  | shutdown

/-- A batch is passed the position after the last command of its queue. A shutdown stops
the threads and writes nothing of its own. -/
def SiteEvent.exec (s : Site) : SiteEvent → Site
  | .append c => ⟨s.log ++ [c], { s.files with aof := aofBytes (s.log ++ [c]) }⟩
  | .startup =>
    match initialIndexesSequentialLogToIndexedLog s.files true with
    | .returned r => ⟨s.log, r.result.files⟩
    | _ => s
  | .batch ri stop =>
    match s.files.indexedLog.openW with
    | none => s
    | some dbp =>
      let seek := offset s.log (commandsBefore s.log (readFinalLogSeek s.files.finalLogSeek) + ri.length)
      ⟨s.log, ((writeToIndexedLog ri seek stop).effects.foldl Effect.exec ⟨s.files, dbp, none⟩).files⟩
  | .shutdown => s

def siteStep (e : SiteEvent) (s : Site) : Site × List Empty := (e.exec s, [])

/-- A server that was never started. -/
def Site.new : Site where
  log := []
  files :=
    { aof := []
      finalLogSeek := none
      finalLogSeekReplica := none
      checkpointLogSeek := none
      indexedLog := .missing
      replica := .missing }

/-- How many commands of the log lie before the position in `FINAL_LOG_SEEK`, and before
that in `FINAL_LOG_SEEK_REPLICA`. -/
def Site.indexed (s : Site) : ℕ := commandsBefore s.log (readFinalLogSeek s.files.finalLogSeek)

def Site.replicated (s : Site) : ℕ := commandsBefore s.log (readFinalLogSeek s.files.finalLogSeekReplica)

end RedisIR

import CServer.CloudDisk.Effects
import CServer.Foundation.Runs

/-!
# Requests served one after another

A request names a handler and its arguments. `step` is the state after serving
it alone, every statement succeeding; `upload` includes the storing of the
object, under the file id that FastDFS returned. `flushRedis` is not a request
of a client: redis loses its keys between two requests.
-/
namespace CServer.CloudDisk

open Program

inductive Request where
  | upload (user filename md5 : String) (size : ℤ) (fileid fdfsFileUrl now : String)
  | dealMd5 (user md5 filename now : String)
  | saveFile (user md5 filename now : String)
  | delFile (user md5 filename : String)
  | shareFile (user md5 filename now : String)
  | cancelShareFile (user md5 filename : String)
  | pvFile (md5 filename : String)
  | getRankingFilelist (start count : ℤ)
  | flushRedis
  deriving DecidableEq, Repr

/-- What `upload_to_dfstorage` leaves before the tables are written. -/
def Store.storeObject (s : Store) (fileid : String) : Store :=
  { s with objects := insert fileid s.objects }

def Store.flushRedis (s : Store) : Store :=
  { s with filePublicZset := .empty, fileNameHash := ∅, tokens := ∅ }

def step (R : RedisServer) (s : Store) : Request → Store
  | .upload user filename md5 size fileid fdfsFileUrl now =>
      (run (servers R) (storeFileinfoToMysql user filename md5 size fileid fdfsFileUrl now)
        (s.storeObject fileid)).2
  | .dealMd5 user md5 filename now => (run (servers R) (dealMd5 user md5 filename now) s).2
  | .saveFile user md5 filename now => (run (servers R) (saveFile user md5 filename now) s).2
  | .delFile user md5 filename => (run (servers R) (delFile user md5 filename) s).2
  | .shareFile user md5 filename now => (run (servers R) (shareFile user md5 filename now) s).2
  | .cancelShareFile user md5 filename => (run (servers R) (cancelShareFile user md5 filename) s).2
  | .pvFile md5 filename => (run (servers R) (pvFile md5 filename) s).2
  | .getRankingFilelist start count => (run (servers R) (getRankingFilelist start count) s).2
  | .flushRedis => s.flushRedis

section Steps

variable (R : RedisServer) (s : Store) (user md5 filename now : String)

@[simp] theorem step_upload (size : ℤ) (fileid fdfsFileUrl : String) :
    step R s (.upload user filename md5 size fileid fdfsFileUrl now) =
      (s.storeObject fileid).addNewFile (newFileInfo filename md5 size fileid fdfsFileUrl)
        (newUserFile user md5 now filename) := by
  rw [step, run_storeFileinfoToMysql]

@[simp] theorem step_dealMd5 :
    step R s (.dealMd5 user md5 filename now) = s.gainFile user md5 now filename :=
  run_dealMd5 R s user md5 filename now

@[simp] theorem step_saveFile :
    step R s (.saveFile user md5 filename now) = s.gainFile user md5 now filename :=
  run_saveFile R s user md5 filename now

@[simp] theorem step_delFile :
    step R s (.delFile user md5 filename) = s.delFile R user md5 filename :=
  run_delFile R s user md5 filename

@[simp] theorem step_shareFile :
    step R s (.shareFile user md5 filename now) = s.shareFile R user md5 now filename :=
  run_shareFile R s user md5 filename now

@[simp] theorem step_cancelShareFile :
    step R s (.cancelShareFile user md5 filename) = s.cancelShareFile user md5 filename :=
  run_cancelShareFile R s user md5 filename

@[simp] theorem step_pvFile :
    step R s (.pvFile md5 filename) = s.pvFile R md5 filename :=
  run_pvFile R s md5 filename

@[simp] theorem step_getRankingFilelist (start count : ℤ) :
    step R s (.getRankingFilelist start count) = s.refreshRanking := by
  rw [step, run_getRankingFilelist]

@[simp] theorem step_flushRedis : step R s .flushRedis = s.flushRedis := rfl

end Steps

end CServer.CloudDisk

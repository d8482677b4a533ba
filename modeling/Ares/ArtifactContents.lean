import Ares.ByteStrings
import Ares.OperationRuns

/-! The artifact store keeps content under the name of its hash, in one map with what clients upload
under names of their own. Nothing keeps a client from uploading under the name of a content. -/
namespace ArtifactContents

open OperationRuns Function

export ByteStrings (Bytes)

structure Entry where
  data : Bytes
  expires : ℤ

structure ArtifactStore where
  entries : String → Option Entry
  ttl : ℤ

inductive ContentErr where
  | notFound (handle : Bytes)
  | corrupted
  deriving DecidableEq

def hex (handle : Bytes) : String := String.ofList (ByteStrings.hexDigits handle)

def ContentErr.text : ContentErr → String
  | .notFound handle => "artifact: handle " ++ hex handle ++ " not found"
  | .corrupted => "artifact: content hash mismatch"

def contentKey (handle : Bytes) : String := "content:" ++ hex handle

namespace ArtifactStore

variable (sha256 : Bytes → Bytes) (s : ArtifactStore)

def put (key : String) (data : Bytes) (now : ℤ) : ArtifactStore :=
  { s with entries := update s.entries key (some ⟨data, now + s.ttl⟩) }

def get (key : String) (now : ℤ) : Option Bytes :=
  (s.entries key).bind fun e => if now > e.expires then none else some e.data

def delete (key : String) : ArtifactStore :=
  { s with entries := update s.entries key none }

def sweep (now : ℤ) : ArtifactStore :=
  { s with entries := fun key => (s.entries key).filter fun e => ¬ now > e.expires }

def putContent (data : Bytes) (now : ℤ) : Bytes × ArtifactStore :=
  (sha256 data, s.put (contentKey (sha256 data)) data now)

def getContent (handle : Bytes) (now : ℤ) : Except ContentErr Bytes :=
  match s.get (contentKey handle) now with
  | none => .error (.notFound handle)
  | some data => if sha256 data ≠ handle then .error .corrupted else .ok data

end ArtifactStore

structure PutRequest where
  key : String
  body : Bytes
  failure : Option String

def defaultMaxArtifactSize : ℤ := 64 * 2 ^ 20

def putFailure (maxArtifactSize : ℤ) (r : PutRequest) : Option (ℕ × String) :=
  let limit := if maxArtifactSize = 0 then defaultMaxArtifactSize else maxArtifactSize
  if r.key = "" then some (400, "missing key")
  else if 0 < limit ∧ limit < r.body.length then some (413, "artifact exceeds size limit")
  else r.failure.map fun e => (400, "read body: " ++ e)

def handleArtifactPut (artifacts : Option ArtifactStore) (maxArtifactSize now : ℤ)
    (r : PutRequest) : (ℕ × String) × Option ArtifactStore :=
  match artifacts with
  | none => ((503, "no artifact store configured"), none)
  | some s =>
    match putFailure maxArtifactSize r with
    | some failure => (failure, some s)
    | none => ((204, ""), some (s.put r.key r.body now))

inductive Op where
  | putContent (data : Bytes)
  | getContent (handle : Bytes)
  | sweep
  | delete (key : String)
  | artifactPut (maxArtifactSize : ℤ) (r : PutRequest)

structure Call where
  op : Op
  now : ℤ

variable (sha256 : Bytes → Bytes)

def perform (c : Call) (s : ArtifactStore) : ArtifactStore :=
  match c.op with
  | .putContent data => (s.putContent sha256 data c.now).2
  | .getContent _ => s
  | .sweep => s.sweep c.now
  | .delete key => s.delete key
  | .artifactPut limit r => (handleArtifactPut (some s) limit c.now r).2.getD s

def Op.stores : Op → Option (String × Bytes)
  | .putContent data => some (contentKey (sha256 data), data)
  | .artifactPut limit r => if putFailure limit r = none then some (r.key, r.body) else none
  | _ => none

def Alive (key : String) (s : ArtifactStore) (now : ℤ) : Prop :=
  ∀ e, s.entries key = some e → now ≤ e.expires

/-- The content has not expired, is not deleted, and nothing else is stored under its name. -/
structure Keeps (data : Bytes) (s : ArtifactStore) (c : Call) : Prop where
  alive : Alive (contentKey (sha256 data)) s c.now
  stays : c.op ≠ .delete (contentKey (sha256 data))
  same : ∀ body, c.op.stores sha256 = some (contentKey (sha256 data), body) → body = data

variable {sha256} {data : Bytes} {s : ArtifactStore}

def Stored (key : String) (data : Bytes) (s : ArtifactStore) : Prop :=
  ∃ e, s.entries key = some e ∧ e.data = data

theorem stored_put {key key' : String} {body : Bytes} {now : ℤ} (stored : Stored key data s)
    (same : key' = key → body = data) : Stored key data (s.put key' body now) := by
  by_cases eq : key' = key
  · subst eq
    exact ⟨_, update_self .., same rfl⟩
  · obtain ⟨e, there, holds⟩ := stored
    exact ⟨e, (update_of_ne (Ne.symm eq) ..).trans there, holds⟩

theorem stored_perform {c : Call} (keeps : Keeps sha256 data s c)
    (stored : Stored (contentKey (sha256 data)) data s) :
    Stored (contentKey (sha256 data)) data (perform sha256 c s) := by
  obtain ⟨alive, stays, same⟩ := keeps
  unfold perform
  cases hop : c.op with
  | putContent body => exact stored_put stored fun eq => same body (by rw [hop, Op.stores, eq])
  | getContent handle => exact stored
  | sweep =>
    obtain ⟨e, there, holds⟩ := stored
    refine ⟨e, ?_, holds⟩
    simp [ArtifactStore.sweep, there, alive e there]
  | delete key =>
    have other : contentKey (sha256 data) ≠ key := fun eq => stays (by rw [hop, eq])
    obtain ⟨e, there, holds⟩ := stored
    exact ⟨e, (update_of_ne other ..).trans there, holds⟩
  | artifactPut limit r =>
    simp only [handleArtifactPut]
    cases ok : putFailure limit r with
    | some failure => exact stored
    | none => exact stored_put stored fun eq => same r.body (by rw [hop, Op.stores, if_pos ok, eq])

theorem getContent_of_stored {now : ℤ} (stored : Stored (contentKey (sha256 data)) data s)
    (alive : Alive (contentKey (sha256 data)) s now) :
    s.getContent sha256 (sha256 data) now = .ok data := by
  obtain ⟨e, there, rfl⟩ := stored
  have fresh := not_lt.mpr (alive e there)
  simp [ArtifactStore.getContent, ArtifactStore.get, there, fresh]

/-- What was put under its hash is read back from there, byte by byte, after any calls that let it
live and upload nothing else under that name. -/
theorem content_stable (sha256 : Bytes → Bytes) (s : ArtifactStore) (data : Bytes) (t : ℤ)
    (calls : List Call)
    (keeps : AllSteps (perform sha256) (Keeps sha256 data) (s.putContent sha256 data t).2 calls)
    {now : ℤ} (alive : Alive (contentKey (sha256 data))
      (last (perform sha256) (s.putContent sha256 data t).2 calls) now) :
    (last (perform sha256) (s.putContent sha256 data t).2 calls).getContent sha256
      (s.putContent sha256 data t).1 now = .ok data := by
  have kept : ∀ (calls : List Call) (s : ArtifactStore),
      AllSteps (perform sha256) (Keeps sha256 data) s calls →
      Stored (contentKey (sha256 data)) data s →
      Stored (contentKey (sha256 data)) data (last (perform sha256) s calls) := by
    intro calls
    induction calls with
    | nil => exact fun _ _ stored => stored
    | cons c calls ih => exact fun s keeps stored => ih _ keeps.2 (stored_perform keeps.1 stored)
  refine getContent_of_stored (kept calls _ keeps ?_) alive
  exact ⟨_, update_self .., rfl⟩

def emptyStore : ArtifactStore := ⟨fun _ => none, 1800⟩

def upload (key : String) (body : Bytes) : Call := ⟨.artifactPut 0 ⟨key, body, none⟩, 1⟩

theorem content_stable_upload :
    (last (perform id) (emptyStore.putContent id [1] 0).2 [upload "k" [2]]).getContent id
      (emptyStore.putContent id [1] 0).1 1800 = .ok [1] := by
  refine content_stable id emptyStore [1] 0 [upload "k" [2]] ⟨⟨?_, nofun, ?_⟩, trivial⟩ ?_
  · rintro e ⟨⟩
    decide
  · intro body stores
    have key : "k" = contentKey [1] := congrArg Prod.fst (Option.some.inj stores)
    exact absurd key (by decide)
  · rintro e ⟨⟩
    decide

/-- A client uploads other bytes under the name of a content, which is then reported as
corrupted. -/
theorem content_overwritten :
    (last (perform id) (emptyStore.putContent id [1] 0).2 [upload "content:01" [2]]).getContent id
      (emptyStore.putContent id [1] 0).1 1 = .error .corrupted := by
  rfl

end ArtifactContents

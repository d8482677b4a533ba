import Ares.ByteStrings
import Ares.MachineIntegers

/-! The six Go entry points that hand a fusion request to the native scorer, and the native function
as far as its buffers go: its checks, the chunk count in words of thirty-two bits, and the loop that
writes one length per chunk into the caller's array. -/
namespace ChunkedFusion

open MachineIntegers

export ByteStrings (Bytes)

structure EvalKeyFinal where
  evalMultFinal : Bytes
  evalSumFinal : Bytes

structure FullFuseRequest where
  initiatorCiphertext : Bytes
  candidateCiphertexts : List Bytes
  candidateLatQ : List ℤ
  candidateLonQ : List ℤ
  candidateDistanceCiphertexts : List Bytes
  candidateBrownies : List ℤ
  candidatePackages : List (List ℤ)
  candidatePayloadCiphertexts : List (List Bytes)
  profileDim : ℤ
  comparator : String
  selectorSchedule : String
  evalKeys : EvalKeyFinal
  packageBytes : ℤ
  payloadSlotCount : ℤ

structure EncryptedInputFuseRequest where
  initiatorCiphertext : Bytes
  candidateCiphertexts : List Bytes
  candidateDistanceCiphertexts : List Bytes
  candidateBrownies : List ℤ
  candidatePayloadCiphertexts : List (List Bytes)
  profileDim : ℤ
  comparator : String
  selectorSchedule : String
  evalKeys : EvalKeyFinal
  payloadSlotCount : ℤ

def EncryptedInputFuseRequest.fullFuseRequest (req : EncryptedInputFuseRequest) :
    FullFuseRequest where
  initiatorCiphertext := req.initiatorCiphertext
  candidateCiphertexts := req.candidateCiphertexts
  candidateLatQ := []
  candidateLonQ := []
  candidateDistanceCiphertexts := req.candidateDistanceCiphertexts
  candidateBrownies := req.candidateBrownies
  candidatePackages := []
  candidatePayloadCiphertexts := req.candidatePayloadCiphertexts
  profileDim := req.profileDim
  comparator := req.comparator
  selectorSchedule := req.selectorSchedule
  evalKeys := req.evalKeys
  packageBytes := 0
  payloadSlotCount := req.payloadSlotCount

def encryptedInputFuseRequestFromFull (req : FullFuseRequest) : EncryptedInputFuseRequest where
  initiatorCiphertext := req.initiatorCiphertext
  candidateCiphertexts := req.candidateCiphertexts
  candidateDistanceCiphertexts := req.candidateDistanceCiphertexts
  candidateBrownies := req.candidateBrownies
  candidatePayloadCiphertexts := req.candidatePayloadCiphertexts
  profileDim := req.profileDim
  comparator := req.comparator
  selectorSchedule := req.selectorSchedule
  evalKeys := req.evalKeys
  payloadSlotCount := req.payloadSlotCount

/-- The fields that the native interface takes as a word. -/
structure FullFuseRequest.Int32Range (req : FullFuseRequest) : Prop where
  profileDim : InInt32 req.profileDim
  packageBytes : InInt32 req.packageBytes
  payloadSlotCount : InInt32 req.payloadSlotCount

abbrev Checks := List (Bool × String)

def Checks.refusal (checks : Checks) : Option String :=
  (checks.find? fun c => c.1).map fun c => c.2

theorem Checks.refusal_eq_none {checks : Checks} :
    checks.refusal = none ↔ ∀ c ∈ checks, c.1 = false := by
  simp [Checks.refusal]

inductive Stage where
  | setup
  | candidate (i : ℕ)
  | scores
  | selectors
  | masks
  deriving DecidableEq

structure Library where
  throws : Stage → Option String
  chunk : ℕ → Except String ℕ
  malloc : ℕ → Bool

/-- What crosses the interface. A blob comes with the lengths of its pieces. -/
structure NativeArgs where
  ctxHandle : Bool
  initiatorCtLen : ℕ
  candidateCtLens : List ℕ
  rawDistance : Bool
  distanceCts : Option (ℕ × List ℕ)
  nCandidates : ℤ
  profileDim : ℤ
  comparator : List Char
  selectorSchedule : List Char
  evalMultKeyLen : ℕ
  evalSumKeyLen : ℕ
  packageBytes : Option ℤ
  payloadCts : Option (ℕ × List ℕ)
  payloadSlotCount : ℤ

namespace NativeArgs

variable (a : NativeArgs)

def chunkSize : ℤ := int32 (nextPowerOfTwo a.profileDim.toNat)

def nChunks : ℤ := (int32 (int32 (a.payloadSlotCount + a.chunkSize) - 1)).tdiv a.chunkSize

def modeChecks : Checks :=
  [(decide (a.initiatorCtLen = 0) || a.rawDistance == a.distanceCts.isSome ||
      (!a.ctxHandle && decide (a.evalMultKeyLen = 0)) ||
      (!a.ctxHandle && decide (a.evalSumKeyLen = 0)) ||
      a.packageBytes.isSome == a.payloadCts.isSome,
    "invalid pointers or payload mode passed to chunked payload fusion"),
   (decide (a.nCandidates ≤ 0) || decide (a.profileDim ≤ 0) ||
      decide (a.payloadSlotCount ≤ 0) ||
      a.packageBytes.any fun b =>
        decide (b ≤ 0) || decide (a.payloadSlotCount < int32 (b * 8)),
    "invalid chunked-fuse dimensions"),
   (a.payloadCts.any fun p =>
      decide (int32 p.2.length ≠ int32 (a.nCandidates * a.nChunks)),
    "encrypted payload ciphertext count does not match candidate/chunk shape"),
   (a.payloadCts.any fun p => decide (p.1 = 0),
    "encrypted payload ciphertext bytes and lengths are required"),
   (a.distanceCts.any fun d =>
      decide (int32 d.2.length ≠ a.nCandidates) || decide (d.1 = 0),
    "encrypted distance ciphertext shape is invalid")]

def lensRefusal (bad mismatch : String) (blobLen : ℕ) : ℕ → List ℕ → Option String
  | offset, [] => if offset ≠ blobLen then some mismatch else none
  | offset, len :: lens =>
    if len = 0 ∨ offset > blobLen ∨ len > blobLen - offset then some bad
    else lensRefusal bad mismatch blobLen (offset + len) lens

def payloadRefusal : Option String :=
  a.payloadCts.bind fun p => lensRefusal "invalid encrypted payload ciphertext length"
    "encrypted payload ciphertext blob length does not match lens" p.1 0
    (p.2.take (int32 p.2.length).toNat)

def distanceRefusal : Option String :=
  a.distanceCts.bind fun d => lensRefusal "invalid encrypted distance ciphertext length"
    "encrypted distance ciphertext blob length does not match lens" d.1 0
    (d.2.take (int32 d.2.length).toNat)

def candidateRefusal (lib : Library) : ℕ → List ℕ → Option String
  | _, [] => none
  | i, len :: lens =>
    if len = 0 then some "candidate ciphertext length is zero"
    else (lib.throws (.candidate i)).or (candidateRefusal lib (i + 1) lens)

def comparatorValue : List Char :=
  if a.comparator = [] then "tanh_chebyshev".toList else a.comparator

def comparatorSupported : Bool :=
  decide (a.comparatorValue ∈ ["tanh_chebyshev".toList, "logistic".toList, "selector".toList])

end NativeArgs

def isSpace (c : Char) : Bool :=
  decide (c ∈ [' ', '\t', '\n', Char.ofNat 11, Char.ofNat 12, '\r'])

def trim (s : List Char) : List Char :=
  ((s.dropWhile isSpace).reverse.dropWhile isSpace).reverse

def splitSchedule (raw : List Char) : List (List Char) :=
  let lowered := trim (raw.map Char.toLower)
  if lowered = "none".toList ∨ lowered = "identity".toList then []
  else ((raw.splitOn ',').map trim).filter fun part => !part.isEmpty

namespace NativeArgs

variable (a : NativeArgs)

def unsupportedStage : Option (List Char) :=
  (splitSchedule a.selectorSchedule).find? fun mode =>
    decide (mode ≠ "smoothstep5".toList) && decide (mode ≠ "smoothstep7".toList)

def scoringRefusal (lib : Library) : Option String :=
  (if a.comparatorSupported then none
    else some "chunked scorer supports tanh_chebyshev, logistic, or selector comparators").or <|
  (lib.throws .scores).or <|
  (if 2 ≤ a.nCandidates then
    a.unsupportedStage.map fun mode =>
      "unsupported selector schedule stage: " ++ String.ofList mode
    else none).or <|
  (lib.throws .selectors).or <|
  (if a.nCandidates = 1 then some "product tree requires at least one factor" else none).or <|
  lib.throws .masks

def refusal (lib : Library) : Option String :=
  a.modeChecks.refusal.or <|
  a.payloadRefusal.or <|
  a.distanceRefusal.or <|
  (lib.throws .setup).or <|
  (candidateRefusal lib 0 (a.candidateCtLens.take a.nCandidates.toNat)).or <|
  a.scoringRefusal lib

end NativeArgs

/-- What the call leaves: the lengths written into `out_chunk_lens` from index zero on,
and either the error text or the chunk count and the output length. -/
structure NativeOut where
  lens : List ℕ
  status : Except String (ℤ × ℕ)

def fuseChunks (lib : Library) : ℕ → ℕ → List ℕ × Option String
  | 0, _ => ([], none)
  | todo + 1, c =>
    match lib.chunk c with
    | .error e => ([], some e)
    | .ok len => (len :: (fuseChunks lib todo (c + 1)).1, (fuseChunks lib todo (c + 1)).2)

def chunkedFusePayloadCKKSImpl (lib : Library) (a : NativeArgs) : NativeOut :=
  match a.refusal lib with
  | some e => ⟨[], .error e⟩
  | none =>
    let fused := fuseChunks lib a.nChunks.toNat 0
    match fused.2 with
    | some e => ⟨fused.1, .error e⟩
    | none =>
      if lib.malloc fused.1.sum then ⟨fused.1, .ok (a.nChunks, fused.1.sum)⟩
      else ⟨fused.1, .error "out-of-memory serializing chunked fused payload"⟩

inductive Trap where
  | index
  | slice
  | makeLen
  | goBytes
  deriving DecidableEq

/-- A returned chunk is a piece of the blob: its offset and its length. -/
inductive Outcome where
  | refused (err : String)
  | trapped (t : Trap)
  | returned (chunks : List (ℕ × ℕ))
  deriving DecidableEq

structure Run where
  writes : List ℕ
  outLen : ℕ
  outcome : Outcome
  deriving DecidableEq

/-- The caller's array stays inside its 256 entries and no index, slice or make expression is out of
range. -/
structure Run.InBounds (r : Run) : Prop where
  writes : ∀ i ∈ r.writes, i < 256
  index : r.outcome ≠ .trapped .index
  slice : r.outcome ≠ .trapped .slice
  makeLen : r.outcome ≠ .trapped .makeLen

def refuse (err : String) : Run := ⟨[], 0, .refused err⟩

def maxChunks : ℕ := 256

/-- The taking of an address `&xs[0]` for each slice passed to the native code, then the
call itself. -/
def call (lib : Library) (firsts : List ℕ) (a : NativeArgs) (failure : String)
    (unpack : List ℕ → ℤ → ℕ → Outcome) : Run :=
  if 0 ∈ firsts then ⟨[], 0, .trapped .index⟩
  else
    let out := chunkedFusePayloadCKKSImpl lib a
    match out.status with
    | .error e => ⟨List.range out.lens.length, 0, .refused (failure ++ e)⟩
    | .ok (nChunks, outLen) => ⟨List.range out.lens.length, outLen, unpack out.lens nChunks outLen⟩

def withBlob (nChunks : ℤ) (outLen : ℕ) (k : ℕ → Outcome) : Outcome :=
  if int32 outLen < 0 then .trapped .goBytes
  else if nChunks < 0 then .trapped .makeLen
  else k (int32 outLen).toNat

def sliceChunks (lens : List ℕ) (blobLen : ℕ) : ℕ → ℕ → ℕ → List (ℕ × ℕ) → Outcome
  | 0, _, _, done => .returned done
  | todo + 1, c, off, done =>
    if maxChunks ≤ c then .trapped .index
    else if blobLen < off + lens.getD c 0 then .trapped .slice
    else sliceChunks lens blobLen todo (c + 1) (off + lens.getD c 0)
      (done ++ [(off, lens.getD c 0)])

def unpackPlain (lens : List ℕ) (nChunks : ℤ) (outLen : ℕ) : Outcome :=
  if maxChunks < nChunks then
    .refused ("chunked fuse produced " ++ toString nChunks ++ " chunks > cap " ++
      toString maxChunks)
  else withBlob nChunks outLen fun blobLen => sliceChunks lens blobLen nChunks.toNat 0 0 []

structure Wording where
  fusion : String
  serialized : String
  output : String

def copyChunks (w : Wording) (lens : List ℕ) (blobLen : ℕ) :
    ℕ → ℕ → ℕ → List (ℕ × ℕ) → Outcome
  | 0, _, off, done =>
    if off ≠ blobLen then .refused (w.output ++ " output length does not match chunk lengths")
    else .returned done
  | todo + 1, c, off, done =>
    if maxChunks ≤ c then .trapped .index
    else if lens.getD c 0 = 0 ∨ (blobLen : ℤ) - off < lens.getD c 0 then
      .refused ("invalid serialized " ++ w.serialized ++ " chunk " ++ toString c ++ " length")
    else if blobLen < off + lens.getD c 0 then .trapped .slice
    else copyChunks w lens blobLen todo (c + 1) (off + lens.getD c 0)
      (done ++ [(off, lens.getD c 0)])

def unpackEncrypted (w : Wording) (expectedChunks : ℤ) (lens : List ℕ) (nChunks : ℤ)
    (outLen : ℕ) : Outcome :=
  if nChunks ≠ expectedChunks then
    .refused (w.fusion ++ " produced " ++ toString nChunks ++ " chunks, want " ++
      toString expectedChunks)
  else withBlob nChunks outLen fun blobLen => copyChunks w lens blobLen nChunks.toNat 0 0 []

def defaultStringGo (value fallback : String) : String := if value = "" then fallback else value

def cString (s : String) : List Char := s.toList.takeWhile fun c => decide (c ≠ Char.ofNat 0)

def lengths (cts : List Bytes) : List ℕ := cts.map List.length

def requirePlainPayloadMode (req : FullFuseRequest) : Checks :=
  [(decide (req.candidatePayloadCiphertexts.length ≠ 0),
    "plaintext package fusion cannot also include encrypted payload chunks")]

def flattenCandidatePackages (packages : List (List ℤ)) (packageBytes : ℤ) : Checks :=
  packages.zipIdx.flatMap fun p =>
    [(decide ((p.1.length : ℤ) ≠ packageBytes),
      "candidate package " ++ toString p.2 ++ " length = " ++ toString p.1.length ++
        ", want " ++ toString packageBytes),
     (p.1.any fun value => decide (value < 0) || decide (255 < value),
      "candidate package " ++ toString p.2 ++ " contains byte out of range")]

def metadataCheck (req : FullFuseRequest) : Bool × String :=
  let n := req.candidateCiphertexts.length
  (decide (req.candidateLatQ.length ≠ n) || decide (req.candidateLonQ.length ≠ n) ||
      decide (req.candidateBrownies.length ≠ n) || decide (req.candidatePackages.length ≠ n),
    "candidate metadata counts must match ciphertext count")

def sizeChecks (req : FullFuseRequest) : Checks :=
  [(decide (req.packageBytes ≤ 0), "packageBytes must be positive"),
   (decide (req.payloadSlotCount ≤ 0), "payloadSlotCount must be positive")] ++
  flattenCandidatePackages req.candidatePackages req.packageBytes

def payloadChecks (req : FullFuseRequest) : Checks :=
  requirePlainPayloadMode req ++
  [(decide (req.initiatorCiphertext.length = 0), "initiator ciphertext is required"),
   (decide (req.candidateCiphertexts.length = 0),
    "at least one candidate ciphertext is required"),
   metadataCheck req,
   (decide (req.evalKeys.evalMultFinal.length = 0) ||
      decide (req.evalKeys.evalSumFinal.length = 0),
    "final eval-mult and eval-sum keys are required")] ++
  sizeChecks req

def payloadWithContextChecks (handle : Bool) (req : FullFuseRequest) : Checks :=
  let evalKeysPreinserted := decide (req.evalKeys.evalMultFinal.length = 0) &&
    decide (req.evalKeys.evalSumFinal.length = 0)
  requirePlainPayloadMode req ++
  [(!handle, "crypto context is required"),
   (decide (req.candidateCiphertexts.length = 0) ||
      decide (req.initiatorCiphertext.length = 0),
    "initiator and at least one candidate ciphertext required"),
   metadataCheck req,
   (decide (req.evalKeys.evalMultFinal.length = 0) && !evalKeysPreinserted,
    "final eval-mult key is required")] ++
  sizeChecks req

def plainArgs (ctxHandle : Bool) (req : FullFuseRequest) : NativeArgs where
  ctxHandle := ctxHandle
  initiatorCtLen := req.initiatorCiphertext.length
  candidateCtLens := lengths req.candidateCiphertexts
  rawDistance := true
  distanceCts := none
  nCandidates := int32 req.candidateCiphertexts.length
  profileDim := int32 req.profileDim
  comparator := cString (defaultStringGo req.comparator "tanh_chebyshev")
  selectorSchedule := cString (defaultStringGo req.selectorSchedule "none")
  evalMultKeyLen := req.evalKeys.evalMultFinal.length
  evalSumKeyLen := req.evalKeys.evalSumFinal.length
  packageBytes := some (int32 req.packageBytes)
  payloadCts := none
  payloadSlotCount := int32 req.payloadSlotCount

def plainFirsts (req : FullFuseRequest) : List ℕ :=
  [req.initiatorCiphertext.length, (lengths req.candidateCiphertexts).sum,
   req.candidateCiphertexts.length, req.candidateLatQ.length, req.candidateLonQ.length,
   req.candidateBrownies.length, (req.candidatePackages.map List.length).sum]

def chunkedFusePayloadCKKS (lib : Library) (req : FullFuseRequest) : Run :=
  match (payloadChecks req).refusal with
  | some err => refuse err
  | none =>
    call lib (plainFirsts req ++
        [req.evalKeys.evalMultFinal.length, req.evalKeys.evalSumFinal.length])
      (plainArgs false req) "chunked fuse payload: " unpackPlain

def chunkedFusePayloadCKKSWithContext (lib : Library) (handle : Bool) (req : FullFuseRequest) :
    Run :=
  match (payloadWithContextChecks handle req).refusal with
  | some err => refuse err
  | none => call lib (plainFirsts req) (plainArgs true req) "chunked fuse payload: " unpackPlain

def goChunkSize (req : FullFuseRequest) : ℤ := doubleUpTo req.profileDim 63 1

def goChunks (req : FullFuseRequest) : ℤ :=
  (req.payloadSlotCount + goChunkSize req - 1) / goChunkSize req

def emptyChecks (what : ℕ → String) (cts : List Bytes) : Checks :=
  cts.zipIdx.map fun p => (decide (p.1.length = 0), what p.2)

def encryptedPayloadChecks (req : FullFuseRequest) (requireEvalKeys : Bool) : Checks :=
  let n := req.candidateCiphertexts.length
  let multEmpty := decide (req.evalKeys.evalMultFinal.length = 0)
  let sumEmpty := decide (req.evalKeys.evalSumFinal.length = 0)
  let distances := decide (req.candidateDistanceCiphertexts.length ≠ 0)
  [(decide (req.initiatorCiphertext.length = 0), "initiator ciphertext is required"),
   (decide (n = 0), "at least one candidate ciphertext is required"),
   (decide (req.candidateBrownies.length ≠ n),
    "candidate metadata counts must match ciphertext count"),
   (!distances && (decide (req.candidateLatQ.length ≠ n) ||
      decide (req.candidateLonQ.length ≠ n)),
    "candidate coordinate counts must match ciphertext count"),
   (distances && (decide (req.candidateLatQ.length ≠ 0) ||
      decide (req.candidateLonQ.length ≠ 0)),
    "encrypted distance mode cannot include candidate coordinates"),
   (decide (req.candidatePackages.length ≠ 0),
    "encrypted payload fusion cannot include plaintext candidate packages"),
   (decide (req.profileDim ≤ 0) || decide (req.payloadSlotCount ≤ 0),
    "profileDim and payloadSlotCount must be positive"),
   (requireEvalKeys && (multEmpty || sumEmpty),
    "final eval-mult and eval-sum keys are required"),
   (!requireEvalKeys && multEmpty != sumEmpty,
    "eval-mult and eval-sum keys must be supplied together"),
   (decide (256 < goChunks req),
    "encrypted payload has " ++ toString (goChunks req) ++ " chunks; maximum is 256"),
   (decide (req.candidatePayloadCiphertexts.length ≠ n),
    "encrypted payload candidate count = " ++
      toString req.candidatePayloadCiphertexts.length ++ ", want " ++ toString n)] ++
  req.candidatePayloadCiphertexts.zipIdx.flatMap fun p =>
    (decide ((p.1.length : ℤ) ≠ goChunks req),
      "encrypted payload candidate " ++ toString p.2 ++ " chunk count = " ++
        toString p.1.length ++ ", want " ++ toString (goChunks req)) ::
    emptyChecks (fun chunk => "encrypted payload candidate " ++ toString p.2 ++ " chunk " ++
      toString chunk ++ " is empty") p.1

def encryptedDistanceChecks (req : FullFuseRequest) : Checks :=
  [(decide (req.candidateDistanceCiphertexts.length ≠ req.candidateCiphertexts.length),
    "encrypted distance candidate count = " ++
      toString req.candidateDistanceCiphertexts.length ++ ", want " ++
      toString req.candidateCiphertexts.length),
   (decide (req.candidateLatQ.length ≠ 0) || decide (req.candidateLonQ.length ≠ 0),
    "encrypted distance mode cannot include candidate coordinates")] ++
  emptyChecks (fun i => "encrypted distance ciphertext " ++ toString i ++ " is empty")
    req.candidateDistanceCiphertexts

def candidateChecks (req : FullFuseRequest) : Checks :=
  emptyChecks (fun i => "candidate ciphertext " ++ toString i ++ " is empty")
    req.candidateCiphertexts

def payloadBlob (req : FullFuseRequest) : List ℕ :=
  lengths req.candidatePayloadCiphertexts.flatten

def encryptedArgs (ctxHandle raw : Bool) (req : FullFuseRequest) : NativeArgs where
  ctxHandle := ctxHandle
  initiatorCtLen := req.initiatorCiphertext.length
  candidateCtLens := lengths req.candidateCiphertexts
  rawDistance := raw
  distanceCts := if raw then none else
    some ((lengths req.candidateDistanceCiphertexts).sum,
      lengths req.candidateDistanceCiphertexts)
  nCandidates := int32 req.candidateCiphertexts.length
  profileDim := int32 req.profileDim
  comparator := cString (defaultStringGo req.comparator "tanh_chebyshev")
  selectorSchedule := cString (defaultStringGo req.selectorSchedule "none")
  evalMultKeyLen := req.evalKeys.evalMultFinal.length
  evalSumKeyLen := req.evalKeys.evalSumFinal.length
  packageBytes := none
  payloadCts := some ((payloadBlob req).sum, payloadBlob req)
  payloadSlotCount := int32 req.payloadSlotCount

def encryptedFirsts (req : FullFuseRequest) : List ℕ :=
  [req.initiatorCiphertext.length, (lengths req.candidateCiphertexts).sum,
   req.candidateCiphertexts.length, req.candidateBrownies.length, (payloadBlob req).sum,
   (payloadBlob req).length]

def payloadEntryChecks (ctx : Bool) (req : FullFuseRequest) : Checks :=
  [(decide (req.candidateDistanceCiphertexts.length ≠ 0),
    "encrypted payload fusion with raw coordinates cannot include encrypted distances")] ++
  encryptedPayloadChecks req (!ctx) ++ candidateChecks req

def encryptedPayloadFusion (lib : Library) (ctx : Bool) (req : FullFuseRequest) : Run :=
  match (payloadEntryChecks ctx req).refusal with
  | some err => refuse err
  | none =>
    call lib (encryptedFirsts req ++ [req.candidateLatQ.length, req.candidateLonQ.length])
      (encryptedArgs ctx true req) "chunked encrypted payload fusion: "
      (unpackEncrypted ⟨"chunked encrypted payload fusion", "encrypted payload",
        "encrypted payload"⟩ (goChunks req))

def chunkedFuseEncryptedPayloadCKKS (lib : Library) (req : FullFuseRequest) : Run :=
  encryptedPayloadFusion lib false req

def chunkedFuseEncryptedPayloadCKKSWithContext (lib : Library) (handle : Bool)
    (req : FullFuseRequest) : Run :=
  if handle then encryptedPayloadFusion lib true req else refuse "crypto context is required"

def inputsEntryChecks (ctx : Bool) (req : FullFuseRequest) : Checks :=
  encryptedPayloadChecks req (!ctx) ++ encryptedDistanceChecks req ++ candidateChecks req

def encryptedInputsFusion (lib : Library) (ctx : Bool) (req : FullFuseRequest) : Run :=
  match (inputsEntryChecks ctx req).refusal with
  | some err => refuse err
  | none =>
    call lib (encryptedFirsts req ++ [(lengths req.candidateDistanceCiphertexts).sum,
        req.candidateDistanceCiphertexts.length])
      (encryptedArgs ctx false req) "chunked encrypted input fusion: "
      (unpackEncrypted ⟨"chunked encrypted input fusion", "encrypted input",
        "encrypted input"⟩ (goChunks req))

def chunkedFuseEncryptedInputsCKKS (lib : Library) (req : EncryptedInputFuseRequest) : Run :=
  encryptedInputsFusion lib false req.fullFuseRequest

def chunkedFuseEncryptedInputsCKKSWithContext (lib : Library) (handle : Bool)
    (req : EncryptedInputFuseRequest) : Run :=
  if handle then encryptedInputsFusion lib true req.fullFuseRequest
  else refuse "crypto context is required"

inductive EntryPoint where
  | payload
  | payloadWithContext
  | encryptedPayload
  | encryptedPayloadWithContext
  | encryptedInputs
  | encryptedInputsWithContext
  deriving DecidableEq

def EntryPoint.run (lib : Library) (handle : Bool) (req : FullFuseRequest) : EntryPoint → Run
  | .payload => chunkedFusePayloadCKKS lib req
  | .payloadWithContext => chunkedFusePayloadCKKSWithContext lib handle req
  | .encryptedPayload => chunkedFuseEncryptedPayloadCKKS lib req
  | .encryptedPayloadWithContext => chunkedFuseEncryptedPayloadCKKSWithContext lib handle req
  | .encryptedInputs => chunkedFuseEncryptedInputsCKKS lib (encryptedInputFuseRequestFromFull req)
  | .encryptedInputsWithContext =>
    chunkedFuseEncryptedInputsCKKSWithContext lib handle (encryptedInputFuseRequestFromFull req)

def EntryPoint.encrypted : EntryPoint → Bool
  | .payload | .payloadWithContext => false
  | _ => true

end ChunkedFusion

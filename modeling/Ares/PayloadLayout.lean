import Ares.ChunkedSelection

/-! Encrypted payloads: the client's encryption of one chunk of a package against the chunks that
the scorer makes of a plain package, and the layout of the encrypted chunks as Go writes it and the
scorer reads it. -/

namespace ChunkedSelection

open ChunkedFusion MachineIntegers List

section

variable {K : Type} [Field K] {B : ℕ}

/-- The batch of the context is `B`, and `keyMatches` tells whether the public key is of it. Nothing
is returned where the code of an error is. -/
def encryptSerializedPayloadChunk (keyMatches : Bool) (payload : Bytes)
    (bitOffset chunkSize : ℕ) : Option (ZMod B → K) :=
  if payload.length = 0 ∨ chunkSize = 0 ∨ chunkSize ≠ B ∨ bitOffset % chunkSize ≠ 0 ∨
      (2 ^ 64 - 1) / 8 < payload.length then none
  else
    let payloadBits := payload.length * 8
    if payloadBits < bitOffset ∨ payloadBits - bitOffset < chunkSize ∨ !keyMatches then none
    else some fun s =>
      let bit := bitOffset + s.val
      (((payload.getD (bit / 8) 0).toNat >>> (7 - bit % 8) &&& 1 : ℕ) : K)

theorem cast_bit (v k : ℕ) :
    ((v >>> k &&& 1 : ℕ) : K) = if (v : ℤ) / 2 ^ k % 2 = 1 then 1 else 0 := by
  have cast : (v : ℤ) / 2 ^ k % 2 = (v / 2 ^ k % 2 : ℕ) := by push_cast; rfl
  rw [cast, Nat.shiftRight_eq_div_pow, Nat.and_one_is_mod]
  obtain zero | one := Nat.mod_two_eq_zero_or_one (v / 2 ^ k)
  · simp [zero]
  · simp [one]

/-- The client encrypts the chunks the server cuts exactly if the bits of the package fill the last
one. -/
theorem encrypted_chunks_agree_iff [NeZero B] (x : Inputs K B) (i : ℕ) (package : Bytes)
    (nonempty : 0 < package.length) (slots : (8 * package.length : ℤ) < 2 ^ 31)
    (batch : (B : ℤ) = x.args.chunkSize)
    (held : ∀ j < package.length,
      x.packages (i * package.length + j) = ((package.getD j 0).toNat : ℤ)) :
    (∀ c < 8 * package.length ⌈/⌉ B, encryptSerializedPayloadChunk true package (c * B) B =
      some (x.packageChunkBits package.length i c)) ↔ B ∣ 8 * package.length := by
  have positive : 0 < B := NeZero.pos B
  have covers : ∀ q, 8 * package.length ⌈/⌉ B ≤ q ↔ 8 * package.length ≤ B * q :=
    fun q => ceilDiv_le_iff_le_smul positive
  constructor
  · intro agree
    obtain ⟨c, count⟩ : ∃ c, 8 * package.length ⌈/⌉ B = c + 1 := by
      refine Nat.exists_eq_add_one.mpr (Nat.pos_of_ne_zero fun zero => ?_)
      have := (covers 0).mp zero.le
      omega
    have room : c * B + B ≤ 8 * package.length := by
      by_contra short
      have last := agree c (by omega)
      rw [encryptSerializedPayloadChunk] at last
      by_cases refused : package.length = 0 ∨ B = 0 ∨ B ≠ B ∨ c * B % B ≠ 0 ∨
          (2 ^ 64 - 1) / 8 < package.length
      · rw [if_pos refused] at last
        cases last
      · rw [if_neg refused, if_pos (by omega)] at last
        cases last
    refine ⟨c + 1, le_antisymm ((covers _).mp count.le) ?_⟩
    rwa [mul_add_one, mul_comm B]
  · rintro ⟨q, whole⟩ c below
    have room : (c + 1) * B ≤ 8 * package.length := by
      rw [whole, mul_comm]
      exact Nat.mul_le_mul_left B (below.trans_le ((covers q).mpr whole.le))
    rw [add_one_mul] at room
    unfold encryptSerializedPayloadChunk
    rw [if_neg, if_neg]
    · refine congrArg some (funext fun s => ?_)
      have inside := s.val_lt
      rw [x.packageChunkBits_apply batch (by omega) (by omega) (by zify at room inside; omega),
        Inputs.packageBit, Int.toNat_natCast, if_neg (by omega), held _ (by omega)]
      exact cast_bit _ _
    · simp only [Bool.not_true, Bool.false_eq_true, or_false]
      omega
    · simp only [Nat.mul_mod_left]
      omega

theorem encrypted_chunks_agree_byte :
    2 ∣ 8 ∧ ∀ c < 4, encryptSerializedPayloadChunk true [171] (c * 2) 2 =
      some ((call 1).packageChunkBits 1 0 c) :=
  ⟨by decide, (encrypted_chunks_agree_iff (call 1) 0 [171] (by decide) (by decide)
    (by decide +kernel) (by simp [call])).mpr (by decide)⟩

/-- A package of one byte in a batch of sixteen slots: accepted as it is, and not encrypted. -/
theorem short_chunk_not_encrypted :
    let args := { (call 2).args with profileDim := 16 }
    args.refusal exactLibrary = none ∧ args.chunkSize = 16 ∧ args.packageBytes = some 1 ∧
      args.payloadSlotCount = 8 ∧ args.nChunks = 1 ∧
      encryptSerializedPayloadChunk (K := ℚ) (B := 16) true [171] 0 16 = none := by
  refine ⟨by decide +kernel, by decide +kernel, rfl, rfl, by decide +kernel, ?_⟩
  rw [encryptSerializedPayloadChunk, if_neg (by decide), if_pos (by decide)]

end

section

/-- The loop over `payload_offsets`. -/
def payloadOffsets : ℕ → List ℕ → List ℕ
  | _, [] => []
  | offset, len :: lens => offset :: payloadOffsets (offset + len) lens

/-- The bytes from which the chunk loop makes the ciphertext of candidate `i` and chunk `c`. -/
def payloadBytes (a : NativeArgs) (blob : Bytes) (lens : List ℕ) (i c : ℕ) : Bytes :=
  let index := (int32 (int32 (i * a.nChunks) + c)).toNat
  (blob.drop ((payloadOffsets 0 lens).getD index 0)).take (lens.getD index 0)

theorem lensRefusal_none {bad mismatch : String} {lens : List ℕ} {blobLen offset : ℕ}
    (positive : ∀ len ∈ lens, len ≠ 0) (total : blobLen = offset + lens.sum) :
    NativeArgs.lensRefusal bad mismatch blobLen offset lens = none := by
  induction lens generalizing offset with
  | nil => simp [NativeArgs.lensRefusal, total]
  | cons len lens ih =>
    obtain ⟨head, tail⟩ := forall_mem_cons.mp positive
    rw [sum_cons] at total
    rw [NativeArgs.lensRefusal, if_neg (by omega)]
    exact ih tail (by omega)

theorem payloadChecks_pass {a : NativeArgs} {blobLen : ℕ} {lens : List ℕ}
    (payloads : a.payloadCts = some (blobLen, lens)) (packages : a.packageBytes = none)
    (candidates : 0 < a.nCandidates) (dim : 0 < a.profileDim) (slots : 0 < a.payloadSlotCount)
    (shape : int32 lens.length = int32 (a.nCandidates * a.nChunks)) (blob : blobLen ≠ 0) :
    ∀ check ∈ a.modeChecks.tail.dropLast, check.1 = false := by
  have few : ¬ a.nCandidates ≤ 0 ∧ ¬ a.profileDim ≤ 0 ∧ ¬ a.payloadSlotCount ≤ 0 := by omega
  refine forall_mem_cons.mpr ⟨?_, forall_mem_cons.mpr ⟨?_, forall_mem_cons.mpr ⟨?_, ?_⟩⟩⟩
  · rw [packages, decide_eq_false few.1, decide_eq_false few.2.1, decide_eq_false few.2.2]
    rfl
  · dsimp only
    rw [payloads, Option.any_some]
    exact decide_eq_false (not_not.mpr shape)
  · rw [payloads, Option.any_some]
    exact decide_eq_false blob
  · exact fun check mem => absurd mem not_mem_nil

theorem take_drop_payloadOffsets {pieces : List Bytes} {k : ℕ} {ct : Bytes}
    (piece : pieces[k]? = some ct) (pre : Bytes) :
    ((pre ++ pieces.flatten).drop ((payloadOffsets pre.length (lengths pieces)).getD k 0)).take
      ((lengths pieces).getD k 0) = ct := by
  induction pieces generalizing pre k with
  | nil => simp at piece
  | cons p pieces ih =>
    cases k with
    | zero =>
      obtain rfl : p = ct := by simpa using piece
      simp [lengths, payloadOffsets]
    | succ k =>
      have next := ih (by simpa using piece) (pre ++ p)
      simpa [lengths, payloadOffsets] using next

theorem int32_index {i m c : ℕ} (small : i * m + c < 2 ^ 31) :
    (int32 (int32 ((i : ℤ) * (m : ℤ)) + c)).toNat = i * m + c := by
  have start : int32 ((i : ℤ) * m) = ((i * m : ℕ) : ℤ) := by
    exact int32_of_inInt32 ⟨by omega, by omega⟩
  rw [start, ← Nat.cast_add, int32_of_inInt32 ⟨by omega, by omega⟩, Int.toNat_natCast]

theorem getElem?_flatten_uniform {α : Type} {rows : List (List α)} {m : ℕ}
    (uniform : ∀ row ∈ rows, row.length = m) {i c : ℕ} {row : List α} {a : α}
    (at_row : rows[i]? = some row) (at_col : row[c]? = some a) :
    rows.flatten[i * m + c]? = some a := by
  induction rows generalizing i with
  | nil => simp at at_row
  | cons r rows ih =>
    obtain ⟨head, tail⟩ := forall_mem_cons.mp uniform
    rw [flatten_cons]
    cases i with
    | zero =>
      obtain rfl : r = row := by simpa using at_row
      have inside := (List.getElem?_eq_some_iff.mp at_col).1
      rw [zero_mul, zero_add, getElem?_append_left inside]
      exact at_col
    | succ i =>
      rw [add_one_mul, getElem?_append_right (by omega), head]
      convert ih tail (by simpa using at_row) using 2
      omega

/-- What Go flattens the scorer accepts, and it reads every chunk back. -/
theorem payload_layout_agrees (ctx raw : Bool) (req : FullFuseRequest)
    (accepted : (encryptedPayloadChecks req (!ctx)).refusal = none)
    (dim : req.profileDim ≤ 2 ^ 30) (slots : req.payloadSlotCount ≤ 2 ^ 30)
    (few : req.candidatePayloadCiphertexts.flatten.length < 2 ^ 31) :
    let a := encryptedArgs ctx raw req
    (∀ check ∈ a.modeChecks.tail.dropLast, check.1 = false) ∧ a.payloadRefusal = none ∧
      ∀ i chunks, req.candidatePayloadCiphertexts[i]? = some chunks →
        ∀ c ct, chunks[c]? = some ct →
          payloadBytes a req.candidatePayloadCiphertexts.flatten.flatten (payloadBlob req) i c =
            ct := by
  have ready := encryptedReady_of_checks (Checks.refusal_eq_none.mp accepted)
  have positive := ready.dim
  have some_slot := ready.slots
  have word : InInt32 req.profileDim := ⟨by omega, by omega⟩
  have dims : (encryptedArgs ctx raw req).profileDim = req.profileDim := int32_of_inInt32 word
  have count : (encryptedArgs ctx raw req).payloadSlotCount = req.payloadSlotCount :=
    int32_of_inInt32 ⟨by omega, by omega⟩
  obtain ⟨-, -, size⟩ := chunkSize_small (a := encryptedArgs ctx raw req) (by omega) (by omega)
  have same := nChunks_eq_goChunks dims count positive dim some_slot (by omega)
  have some_chunk := ready.goChunks_pos word
  obtain ⟨m, rows⟩ : ∃ m : ℕ, goChunks req = m := ⟨_, (Int.toNat_of_nonneg some_chunk.le).symm⟩
  have uniform : ∀ row ∈ req.candidatePayloadCiphertexts, row.length = m := by
    intro row mem
    have := (ready.chunks row mem).1
    omega
  have total : req.candidatePayloadCiphertexts.flatten.length =
      req.candidateCiphertexts.length * m := by
    rw [length_flatten, ← ready.payloads, map_congr_left uniform, map_const', sum_replicate,
      smul_eq_mul]
  have lens : (payloadBlob req).length = req.candidateCiphertexts.length * m := by
    rw [payloadBlob, lengths, length_map, total]
  have candidates : (encryptedArgs ctx raw req).nCandidates = req.candidateCiphertexts.length := by
    refine int32_of_inInt32 ⟨by omega, ?_⟩
    have := Nat.le_mul_of_pos_right req.candidateCiphertexts.length (show 0 < m by omega)
    omega
  have payloads : (encryptedArgs ctx raw req).payloadCts =
    some ((payloadBlob req).sum, payloadBlob req) := rfl
  refine ⟨?_, ?_, fun i chunks row c ct col => ?_⟩
  · have blob := ready.payloadBlob_sum word
    have shape : int32 (payloadBlob req).length = int32
        ((encryptedArgs ctx raw req).nCandidates * (encryptedArgs ctx raw req).nChunks) := by
      rw [candidates, same, rows, lens, Nat.cast_mul]
    have some_candidate : 0 < (encryptedArgs ctx raw req).nCandidates := by
      rw [candidates]
      exact Int.natCast_pos.mpr (Nat.pos_of_ne_zero ready.candidates)
    exact payloadChecks_pass payloads rfl some_candidate (dims ▸ positive) (count ▸ some_slot) shape
      blob
  · have nonempty : ∀ len ∈ payloadBlob req, len ≠ 0 := by
      intro len mem
      obtain ⟨ct, inside, rfl⟩ := mem_map.mp mem
      obtain ⟨row, mem, inside⟩ := mem_flatten.mp inside
      exact (ready.chunks row mem).2 ct inside
    have word : int32 (payloadBlob req).length = (payloadBlob req).length :=
      int32_of_inInt32 ⟨by omega, by omega⟩
    rw [NativeArgs.payloadRefusal, payloads, Option.bind_some]
    rw [word, Int.toNat_natCast, take_length]
    apply lensRefusal_none nonempty
    omega
  · have index := getElem?_flatten_uniform uniform row col
    have inside := (List.getElem?_eq_some_iff.mp index).1
    have read := take_drop_payloadOffsets index []
    rw [payloadBytes, same, rows, int32_index (inside.trans few)]
    exact read

def encryptedSample : FullFuseRequest :=
  { sample 2 3 with
    candidatePackages := [], candidatePayloadCiphertexts := [[[5], [6, 7]], [[8], [9]]] }

theorem payload_layout_agrees_sample :
    payloadBytes (encryptedArgs false true encryptedSample)
      encryptedSample.candidatePayloadCiphertexts.flatten.flatten
        (payloadBlob encryptedSample) 0 1 =
        [6, 7] :=
  (payload_layout_agrees false true encryptedSample (by decide +kernel) (by decide) (by decide)
    (by decide)).2.2 0 [[5], [6, 7]] rfl 1 [6, 7] rfl

end

end ChunkedSelection

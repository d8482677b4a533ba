import Ares.ChunkedFusion

/-! The native chunk count, what the Go checks establish, and from both the bounds of every entry
point. -/
namespace ChunkedFusion

open MachineIntegers List

section

variable {a : NativeArgs}

def FewChunks (profileDim payloadSlotCount : ℤ) : Prop :=
  2 ^ 30 < profileDim ∨
    (payloadSlotCount ≤ 256 * (nextPowerOfTwo profileDim.toNat : ℤ) ∧
      payloadSlotCount + (nextPowerOfTwo profileDim.toNat : ℤ) ≤ 2 ^ 31)

instance (d p : ℤ) : Decidable (FewChunks d p) :=
  inferInstanceAs (Decidable (_ ∨ _))

theorem NativeArgs.nChunks_eq (a : NativeArgs) :
    a.nChunks = (int32 (a.payloadSlotCount + a.chunkSize - 1)).tdiv a.chunkSize := by
  rw [NativeArgs.nChunks, int32_sub_int32]

theorem chunkSize_small (positive : 0 < a.profileDim) (small : a.profileDim ≤ 2 ^ 30) :
    a.chunkSize = nextPowerOfTwo a.profileDim.toNat ∧ 0 < a.chunkSize ∧ a.chunkSize ≤ 2 ^ 30 := by
  have low := nextPowerOfTwo_pos (v := a.profileDim.toNat) (by omega)
  have high := nextPowerOfTwo_le (v := a.profileDim.toNat) (k := 30) (by omega) (by omega)
  have word : InInt32 (nextPowerOfTwo a.profileDim.toNat : ℤ) := by
    unfold InInt32
    omega
  have size : a.chunkSize = nextPowerOfTwo a.profileDim.toNat := int32_of_inInt32 word
  refine ⟨size, ?_, ?_⟩ <;> omega

theorem nChunks_exact (size : 0 < a.chunkSize) (positive : 0 < a.payloadSlotCount)
    (fits : a.payloadSlotCount + a.chunkSize ≤ 2 ^ 31) :
    a.nChunks = (a.payloadSlotCount + a.chunkSize - 1) / a.chunkSize := by
  rw [NativeArgs.nChunks_eq, int32_of_inInt32, Int.tdiv_eq_ediv_of_nonneg]
  · omega
  · unfold InInt32
    omega

theorem nChunks_overflow (size : 0 < a.chunkSize) (small : a.chunkSize ≤ 2 ^ 30)
    (word : a.payloadSlotCount < 2 ^ 31)
    (past : 2 ^ 31 < a.payloadSlotCount + a.chunkSize) : a.nChunks < 0 := by
  rw [NativeArgs.nChunks_eq, int32_of_overflow (by omega) (by omega)]
  obtain ⟨y, hy⟩ : ∃ y, y = 2 ^ 32 - (a.payloadSlotCount + a.chunkSize - 1) := ⟨_, rfl⟩
  have large : 1 ≤ y / a.chunkSize := by
    rw [Int.le_ediv_iff_mul_le size]
    omega
  rw [show a.payloadSlotCount + a.chunkSize - 1 - 2 ^ 32 = -y by omega, Int.neg_tdiv,
    Int.tdiv_eq_ediv_of_nonneg (by omega)]
  omega

theorem nChunks_top (low : 2 ^ 30 < a.profileDim) (high : a.profileDim < 2 ^ 31)
    (positive : 0 < a.payloadSlotCount) (word : a.payloadSlotCount < 2 ^ 31) :
    0 ≤ a.nChunks ∧ a.nChunks ≤ 1 := by
  have size : a.chunkSize = -2 ^ 31 := by
    rw [NativeArgs.chunkSize, nextPowerOfTwo_top (by omega) (by omega)]
    decide
  have numerator : int32 (a.payloadSlotCount + -2 ^ 31 - 1) =
      -(2 ^ 31 + 1 - a.payloadSlotCount) := by
    unfold int32
    omega
  rw [NativeArgs.nChunks_eq, size, numerator, Int.neg_tdiv, Int.tdiv_neg,
    Int.tdiv_eq_ediv_of_nonneg (by omega)]
  omega

theorem nChunks_mem_iff (dim : 0 < a.profileDim) (dimWord : a.profileDim < 2 ^ 31)
    (positive : 0 < a.payloadSlotCount) (word : a.payloadSlotCount < 2 ^ 31) :
    (0 ≤ a.nChunks ∧ a.nChunks ≤ 256) ↔ FewChunks a.profileDim a.payloadSlotCount := by
  unfold FewChunks
  by_cases large : 2 ^ 30 < a.profileDim
  · have := nChunks_top large dimWord positive word
    constructor
    · intro _
      exact Or.inl large
    · omega
  · obtain ⟨size, sizePos, sizeSmall⟩ := chunkSize_small dim (by omega)
    rw [← size]
    by_cases fits : a.payloadSlotCount + a.chunkSize ≤ 2 ^ 31
    · have rounded := nChunks_exact sizePos positive fits
      have nonneg : 0 ≤ (a.payloadSlotCount + a.chunkSize - 1) / a.chunkSize :=
        Int.ediv_nonneg (by omega) (by omega)
      have count : (a.payloadSlotCount + a.chunkSize - 1) / a.chunkSize ≤ 256 ↔
          a.payloadSlotCount ≤ 256 * a.chunkSize := by
        rw [Int.ediv_le_iff_le_mul sizePos]
        omega
      rw [rounded, count]
      constructor
      · intro h
        exact Or.inr ⟨h.2, fits⟩
      · intro h
        rcases h with h | h
        · exact absurd h large
        · exact ⟨nonneg, h.1⟩
    · have negative := nChunks_overflow sizePos sizeSmall word (by omega)
      constructor
      · omega
      · omega

end

variable {a : NativeArgs} {req : FullFuseRequest}

theorem nChunks_eq_goChunks (dims : a.profileDim = req.profileDim)
    (slots : a.payloadSlotCount = req.payloadSlotCount) (dim : 0 < req.profileDim)
    (small : req.profileDim ≤ 2 ^ 30) (positive : 0 < req.payloadSlotCount)
    (fits : a.payloadSlotCount + a.chunkSize ≤ 2 ^ 31) : a.nChunks = goChunks req := by
  obtain ⟨size, sizePos, -⟩ := chunkSize_small (a := a) (by omega) (by omega)
  have looped := doubleUpTo_one (v := req.profileDim.toNat) (by omega)
  rw [Int.toNat_of_nonneg (by omega)] at looped
  have same : goChunkSize req = a.chunkSize := by
    rw [goChunkSize, size, dims]
    exact looped
  rw [nChunks_exact sizePos (by omega) fits, goChunks, same, slots]

theorem nChunks_le_of_goChunks (dims : a.profileDim = req.profileDim)
    (slots : a.payloadSlotCount = req.payloadSlotCount) (dim : 0 < req.profileDim)
    (dimWord : req.profileDim < 2 ^ 31) (positive : 0 < req.payloadSlotCount)
    (word : req.payloadSlotCount < 2 ^ 31) (capped : goChunks req ≤ 256) : a.nChunks ≤ 256 := by
  by_cases large : 2 ^ 30 < a.profileDim
  · have := nChunks_top large (by omega) (by omega) (by omega)
    omega
  · obtain ⟨-, sizePos, sizeSmall⟩ := chunkSize_small (a := a) (by omega) (by omega)
    by_cases fits : a.payloadSlotCount + a.chunkSize ≤ 2 ^ 31
    · exact (nChunks_eq_goChunks dims slots dim (by omega) positive fits).trans_le capped
    · have := nChunks_overflow sizePos sizeSmall (by omega) (by omega)
      omega

theorem fuseChunks_length_le (lib : Library) (todo c : ℕ) :
    (fuseChunks lib todo c).1.length ≤ todo := by
  induction todo generalizing c with
  | zero => simp [fuseChunks]
  | succ todo ih =>
    unfold fuseChunks
    split
    · simp
    · simpa using ih (c + 1)

variable {lib : Library}

theorem fuseChunks_length {todo c : ℕ} (done : (fuseChunks lib todo c).2 = none) :
    (fuseChunks lib todo c).1.length = todo := by
  induction todo generalizing c with
  | zero => simp [fuseChunks]
  | succ todo ih =>
    unfold fuseChunks at done ⊢
    split at done
    · simp at done
    · simp [ih done]

theorem impl_length_le (lib : Library) (a : NativeArgs) :
    (chunkedFusePayloadCKKSImpl lib a).lens.length ≤ a.nChunks.toNat := by
  have written := fuseChunks_length_le lib a.nChunks.toNat 0
  unfold chunkedFusePayloadCKKSImpl
  split
  · simp
  · dsimp only
    split
    · exact written
    · split <;> exact written

theorem impl_ok {n : ℤ} {outLen : ℕ}
    (ok : (chunkedFusePayloadCKKSImpl lib a).status = .ok (n, outLen)) :
    n = a.nChunks ∧ outLen = (chunkedFusePayloadCKKSImpl lib a).lens.sum ∧
      (chunkedFusePayloadCKKSImpl lib a).lens.length = a.nChunks.toNat := by
  unfold chunkedFusePayloadCKKSImpl at ok ⊢
  split at ok
  · simp at ok
  · dsimp only at ok ⊢
    split at ok
    · simp at ok
    · next done =>
      split at ok
      · next room =>
        simp only [Except.ok.injEq, Prod.mk.injEq] at ok
        rw [if_pos room]
        exact ⟨ok.1.symm, ok.2.symm, fuseChunks_length done⟩
      · simp at ok

theorem call_inBounds {firsts : List ℕ} {failure : String}
    {unpack : List ℕ → ℤ → ℕ → Outcome} (nonempty : 0 ∉ firsts) (few : a.nChunks ≤ 256)
    (unpacked : ∀ lens : List ℕ, lens.length = a.nChunks.toNat →
      (call lib firsts a failure unpack).outLen = lens.sum →
      unpack lens a.nChunks lens.sum ≠ .trapped .index ∧
      unpack lens a.nChunks lens.sum ≠ .trapped .slice ∧
      unpack lens a.nChunks lens.sum ≠ .trapped .makeLen) :
    (call lib firsts a failure unpack).InBounds := by
  have written := impl_length_le lib a
  unfold call at unpacked ⊢
  rw [if_neg nonempty] at unpacked ⊢
  dsimp only at unpacked ⊢
  have indices : ∀ i ∈ List.range (chunkedFusePayloadCKKSImpl lib a).lens.length, i < 256 := by
    intro i hi
    rw [mem_range] at hi
    omega
  split at unpacked
  · exact ⟨indices, by simp, by simp, by simp⟩
  · next n outLen ok =>
    obtain ⟨rfl, rfl, full⟩ := impl_ok ok
    obtain ⟨index, slice, makeLen⟩ := unpacked _ full rfl
    exact ⟨indices, index, slice, makeLen⟩

variable {lens : List ℕ} {req : FullFuseRequest} {blobLen todo c off : ℕ} {done : List (ℕ × ℕ)}

theorem sliceChunks_returns (room : c + todo ≤ 256)
    (fits : off + ((lens.drop c).take todo).sum ≤ blobLen) :
    ∃ chunks, sliceChunks lens blobLen todo c off done = .returned chunks := by
  induction todo generalizing c off done with
  | zero => exact ⟨done, rfl⟩
  | succ todo ih =>
    have head : lens.getD c 0 + ((lens.drop (c + 1)).take todo).sum ≤
        ((lens.drop c).take (todo + 1)).sum := by
      by_cases inside : c < lens.length
      · rw [drop_eq_getElem_cons inside, take_succ_cons, sum_cons,
          getD_eq_getElem lens 0 inside]
      · rw [getD_eq_default _ _ (by omega), drop_eq_nil_of_le (by omega),
          drop_eq_nil_of_le (by omega)]
        simp
    rw [sliceChunks, if_neg (by unfold maxChunks; omega), if_neg (by omega)]
    exact ih (by omega) (by omega)

theorem copyChunks_inBounds {w : Wording} (room : c + todo ≤ 256) (t : Trap) :
    copyChunks w lens blobLen todo c off done ≠ .trapped t := by
  induction todo generalizing c off done with
  | zero =>
    rw [copyChunks]
    split <;> simp
  | succ todo ih =>
    rw [copyChunks, if_neg (by unfold maxChunks; omega)]
    split
    · simp
    · rw [if_neg (by omega)]
      exact ih (by omega)

theorem unpackPlain_returns {n : ℤ} (full : lens.length = n.toNat) (low : 0 ≤ n) (high : n ≤ 256)
    (short : lens.sum < 2 ^ 31) : ∃ chunks, unpackPlain lens n lens.sum = .returned chunks := by
  have word : int32 (lens.sum : ℤ) = lens.sum := int32_of_inInt32 (by unfold InInt32; omega)
  unfold unpackPlain withBlob
  rw [if_neg (by unfold maxChunks; omega), word, if_neg (by omega), if_neg (by omega)]
  apply sliceChunks_returns
  · omega
  · rw [drop_zero, take_of_length_le (by omega)]
    omega

theorem unpackEncrypted_inBounds {expected : ℤ} (low : 0 ≤ expected) (high : expected ≤ 256)
    (w : Wording) (lens : List ℕ) (n : ℤ) (outLen : ℕ) {t : Trap} (other : t ≠ .goBytes) :
    unpackEncrypted w expected lens n outLen ≠ .trapped t := by
  unfold unpackEncrypted withBlob
  split
  · simp
  · split
    · simpa using other.symm
    · rw [if_neg (by omega)]
      exact copyChunks_inBounds (by omega) t

theorem exists_zipIdx {α : Type} {l : List α} {x : α} (h : x ∈ l) : ∃ i, (x, i) ∈ l.zipIdx := by
  rw [← zipIdx_map_fst 0 l, mem_map] at h
  obtain ⟨p, hp, rfl⟩ := h
  exact ⟨p.2, hp⟩

theorem nonempty_of_emptyChecks {what : ℕ → String} {cts : List Bytes}
    (h : ∀ c ∈ emptyChecks what cts, c.1 = false) : ∀ ct ∈ cts, ct.length ≠ 0 := by
  intro ct hct
  obtain ⟨i, hi⟩ := exists_zipIdx hct
  simpa using h _ (mem_map_of_mem hi)

theorem lengths_sum_ne_zero {cts : List Bytes} :
    (lengths cts).sum ≠ 0 ↔ ∃ ct ∈ cts, ct.length ≠ 0 := by
  simp [lengths, List.sum_eq_zero_iff_forall_eq_nat]

structure EncryptedReady (req : FullFuseRequest) : Prop where
  initiator : req.initiatorCiphertext.length ≠ 0
  candidates : req.candidateCiphertexts.length ≠ 0
  brownies : req.candidateBrownies.length = req.candidateCiphertexts.length
  coordinates : req.candidateDistanceCiphertexts.length = 0 →
    req.candidateLatQ.length = req.candidateCiphertexts.length ∧
      req.candidateLonQ.length = req.candidateCiphertexts.length
  dim : 0 < req.profileDim
  slots : 0 < req.payloadSlotCount
  capped : goChunks req ≤ 256
  payloads : req.candidatePayloadCiphertexts.length = req.candidateCiphertexts.length
  chunks : ∀ p ∈ req.candidatePayloadCiphertexts,
    (p.length : ℤ) = goChunks req ∧ ∀ ct ∈ p, ct.length ≠ 0

theorem encryptedReady_of_checks {keys : Bool}
    (h : ∀ c ∈ encryptedPayloadChecks req keys, c.1 = false) : EncryptedReady req := by
  unfold encryptedPayloadChecks at h
  rw [forall_mem_append] at h
  obtain ⟨fixed, perCandidate⟩ := h
  simp only [forall_mem_cons, decide_eq_false_iff_not, Bool.or_eq_false_iff, not_not,
    Bool.and_eq_false_iff, Bool.not_eq_false', decide_eq_true_eq, not_le, not_lt] at fixed
  obtain ⟨initiator, candidates, brownies, coordinates, -, -, dims, -, -, capped, payloads, -⟩ :=
    fixed
  refine ⟨initiator, candidates, brownies, ?_, dims.1, dims.2, capped, payloads, ?_⟩
  · intro none
    exact coordinates.resolve_left (fun h => h none)
  · intro p hp
    obtain ⟨i, hi⟩ := exists_zipIdx hp
    have checked := fun c hc => perCandidate c (mem_flatMap.mpr ⟨(p, i), hi, hc⟩)
    rw [forall_mem_cons] at checked
    exact ⟨by simpa using checked.1, nonempty_of_emptyChecks checked.2⟩

section

variable {req : FullFuseRequest} (ready : EncryptedReady req)

include ready

section

variable (word : InInt32 req.profileDim)

include word

theorem EncryptedReady.goChunks_pos : 0 < goChunks req := by
  have dim := ready.dim
  have slots := ready.slots
  have word := word.2
  have looped := doubleUpTo_one (v := req.profileDim.toNat) (by omega)
  rw [Int.toNat_of_nonneg (by omega)] at looped
  have size : 0 < goChunkSize req := by
    rw [goChunkSize, looped]
    exact_mod_cast nextPowerOfTwo_pos (by omega)
  have : 1 ≤ goChunks req := by
    rw [goChunks, Int.le_ediv_iff_mul_le size]
    omega
  omega

theorem EncryptedReady.payloadBlob_sum : (payloadBlob req).sum ≠ 0 := by
  have some := ready.goChunks_pos word
  have candidates := ready.candidates
  have payloads := ready.payloads
  obtain ⟨p, hp⟩ := exists_mem_of_length_pos
    (show 0 < req.candidatePayloadCiphertexts.length by omega)
  obtain ⟨count, nonempty⟩ := ready.chunks p hp
  obtain ⟨ct, hct⟩ := exists_mem_of_length_pos (show 0 < p.length by omega)
  rw [payloadBlob, lengths_sum_ne_zero]
  exact ⟨ct, mem_flatten.mpr ⟨p, hp, hct⟩, nonempty ct hct⟩

theorem EncryptedReady.firsts (nonempty : ∀ ct ∈ req.candidateCiphertexts, ct.length ≠ 0) :
    0 ∉ encryptedFirsts req := by
  have initiator := ready.initiator
  have candidates := ready.candidates
  have brownies := ready.brownies
  have blob := ready.payloadBlob_sum word
  have pieces : (payloadBlob req).length ≠ 0 := by
    intro none
    rw [length_eq_zero_iff] at none
    rw [none] at blob
    exact blob rfl
  obtain ⟨ct, hct⟩ := exists_mem_of_length_pos
    (show 0 < req.candidateCiphertexts.length by omega)
  have sum := lengths_sum_ne_zero.mpr ⟨ct, hct, nonempty ct hct⟩
  simp only [encryptedFirsts, mem_cons, not_mem_nil, or_false]
  omega

end

theorem encrypted_call_inBounds (range : req.Int32Range) {ctx raw : Bool}
    {firsts : List ℕ} {failure : String} {w : Wording} (nonempty : 0 ∉ firsts) :
    (call lib firsts (encryptedArgs ctx raw req) failure
      (unpackEncrypted w (goChunks req))).InBounds := by
  have some := ready.goChunks_pos range.profileDim
  have few : (encryptedArgs ctx raw req).nChunks ≤ 256 :=
    nChunks_le_of_goChunks (int32_of_inInt32 range.profileDim)
      (int32_of_inInt32 range.payloadSlotCount) ready.dim range.profileDim.2 ready.slots
      range.payloadSlotCount.2 ready.capped
  apply call_inBounds nonempty few
  intro lens _ _
  have unpacked : ∀ t : Trap, t ≠ .goBytes → _ := fun t other =>
    unpackEncrypted_inBounds some.le ready.capped w lens (encryptedArgs ctx raw req).nChunks
      lens.sum other
  exact ⟨unpacked _ (by decide), unpacked _ (by decide), unpacked _ (by decide)⟩

end

theorem refuse_inBounds (err : String) : (refuse err).InBounds :=
  ⟨by simp [refuse], by simp [refuse], by simp [refuse], by simp [refuse]⟩

theorem encryptedPayloadFusion_inBounds (range : req.Int32Range)
    (lib : Library) (ctx : Bool) : (encryptedPayloadFusion lib ctx req).InBounds := by
  unfold encryptedPayloadFusion
  split
  · next err _ => exact refuse_inBounds err
  · next accepted =>
    rw [Checks.refusal_eq_none, payloadEntryChecks, forall_mem_append,
      forall_mem_append] at accepted
    obtain ⟨⟨distances, payload⟩, candidates⟩ := accepted
    have ready := encryptedReady_of_checks payload
    have coordinates := ready.coordinates (by simpa using distances)
    have firsts := ready.firsts range.profileDim (nonempty_of_emptyChecks candidates)
    have some := ready.candidates
    apply encrypted_call_inBounds ready range
    simp only [mem_append, mem_cons, not_mem_nil, or_false, firsts, false_or]
    omega

theorem encryptedInputsFusion_inBounds (range : req.Int32Range)
    (lib : Library) (ctx : Bool) : (encryptedInputsFusion lib ctx req).InBounds := by
  unfold encryptedInputsFusion
  split
  · next err _ => exact refuse_inBounds err
  · next accepted =>
    rw [Checks.refusal_eq_none, inputsEntryChecks, forall_mem_append,
      forall_mem_append, encryptedDistanceChecks, forall_mem_append] at accepted
    obtain ⟨⟨payload, shape, distances⟩, candidates⟩ := accepted
    have ready := encryptedReady_of_checks payload
    have firsts := ready.firsts range.profileDim (nonempty_of_emptyChecks candidates)
    have some := ready.candidates
    have count : req.candidateDistanceCiphertexts.length =
        req.candidateCiphertexts.length := by
      simpa using shape _ (mem_cons_self ..)
    obtain ⟨ct, hct⟩ := exists_mem_of_length_pos
      (show 0 < req.candidateDistanceCiphertexts.length by omega)
    have sum := lengths_sum_ne_zero.mpr ⟨ct, hct, nonempty_of_emptyChecks distances ct hct⟩
    apply encrypted_call_inBounds ready range
    simp only [mem_append, mem_cons, not_mem_nil, or_false, firsts, false_or]
    omega

structure PlainReady (ctx : Bool) (req : FullFuseRequest) : Prop where
  initiator : req.initiatorCiphertext.length ≠ 0
  candidates : req.candidateCiphertexts.length ≠ 0
  lat : req.candidateLatQ.length = req.candidateCiphertexts.length
  lon : req.candidateLonQ.length = req.candidateCiphertexts.length
  brownies : req.candidateBrownies.length = req.candidateCiphertexts.length
  packages : req.candidatePackages.length = req.candidateCiphertexts.length
  keys : ctx = false → req.evalKeys.evalMultFinal.length ≠ 0 ∧
    req.evalKeys.evalSumFinal.length ≠ 0
  bytes : 0 < req.packageBytes
  slots : 0 < req.payloadSlotCount
  widths : ∀ pkg ∈ req.candidatePackages, (pkg.length : ℤ) = req.packageBytes

theorem metadata_of_check (h : (metadataCheck req).1 = false) :
    req.candidateLatQ.length = req.candidateCiphertexts.length ∧
      req.candidateLonQ.length = req.candidateCiphertexts.length ∧
      req.candidateBrownies.length = req.candidateCiphertexts.length ∧
      req.candidatePackages.length = req.candidateCiphertexts.length := by
  simpa [metadataCheck, and_assoc] using h

theorem sizes_of_checks (h : ∀ c ∈ sizeChecks req, c.1 = false) :
    0 < req.packageBytes ∧ 0 < req.payloadSlotCount ∧
      ∀ pkg ∈ req.candidatePackages, (pkg.length : ℤ) = req.packageBytes := by
  rw [sizeChecks, forall_mem_append] at h
  obtain ⟨fixed, perPackage⟩ := h
  refine ⟨by simpa using fixed _ (mem_cons_self ..),
    by simpa using fixed _ (mem_cons_of_mem _ (mem_cons_self ..)), ?_⟩
  intro pkg hpkg
  obtain ⟨i, hi⟩ := exists_zipIdx hpkg
  simpa using perPackage _ (mem_flatMap.mpr ⟨(pkg, i), hi, mem_cons_self ..⟩)

theorem payload_ready (accepted : (payloadChecks req).refusal = none) : PlainReady false req := by
  rw [Checks.refusal_eq_none, payloadChecks, forall_mem_append,
    forall_mem_append] at accepted
  obtain ⟨⟨-, fixed⟩, sizes⟩ := accepted
  simp only [forall_mem_cons, decide_eq_false_iff_not, Bool.or_eq_false_iff] at fixed
  obtain ⟨initiator, candidates, metadata, keys, -⟩ := fixed
  obtain ⟨lat, lon, brownies, packages⟩ := metadata_of_check metadata
  obtain ⟨bytes, slots, widths⟩ := sizes_of_checks sizes
  exact ⟨initiator, candidates, lat, lon, brownies, packages, fun _ => keys, bytes, slots, widths⟩

theorem payloadWithContext_ready {handle : Bool}
    (accepted : (payloadWithContextChecks handle req).refusal = none) : PlainReady true req := by
  rw [Checks.refusal_eq_none, payloadWithContextChecks, forall_mem_append,
    forall_mem_append] at accepted
  obtain ⟨⟨-, fixed⟩, sizes⟩ := accepted
  simp only [forall_mem_cons, decide_eq_false_iff_not, Bool.or_eq_false_iff] at fixed
  obtain ⟨-, ⟨candidates, initiator⟩, metadata, -⟩ := fixed
  obtain ⟨lat, lon, brownies, packages⟩ := metadata_of_check metadata
  obtain ⟨bytes, slots, widths⟩ := sizes_of_checks sizes
  exact ⟨initiator, candidates, lat, lon, brownies, packages, fun h => absurd h (by simp),
    bytes, slots, widths⟩

theorem PlainReady.firsts {ctx : Bool} (ready : PlainReady ctx req) :
    0 ∈ plainFirsts req ↔ ∀ ct ∈ req.candidateCiphertexts, ct.length = 0 := by
  obtain ⟨initiator, candidates, lat, lon, brownies, packages, -, bytes, -, widths⟩ := ready
  obtain ⟨pkg, hpkg⟩ := List.exists_mem_of_length_pos
    (show 0 < req.candidatePackages.length by omega)
  have wide : pkg.length ≠ 0 := by
    have := widths pkg hpkg
    omega
  have packed : (req.candidatePackages.map List.length).sum ≠ 0 := by
    intro none
    rw [List.sum_eq_zero_iff_forall_eq_nat] at none
    exact wide (none _ (List.mem_map_of_mem hpkg))
  have blob : (lengths req.candidateCiphertexts).sum = 0 ↔
      ∀ ct ∈ req.candidateCiphertexts, ct.length = 0 := by
    simp [lengths, List.sum_eq_zero_iff_forall_eq_nat]
  rw [← blob]
  simp only [plainFirsts, List.mem_cons, List.not_mem_nil, or_false]
  omega

/-- What the native checks ask of a plain request, library faults apart. -/
structure NativeAccepts (req : FullFuseRequest) : Prop where
  pair : 2 ≤ int32 req.candidateCiphertexts.length
  nonempty : ∀ ct ∈ req.candidateCiphertexts.take (int32 req.candidateCiphertexts.length).toNat,
    ct.length ≠ 0
  dim : 0 < req.profileDim
  room : int32 (req.packageBytes * 8) ≤ req.payloadSlotCount
  comparator : cString (defaultStringGo req.comparator "tanh_chebyshev") ∈
    [[], "tanh_chebyshev".toList, "logistic".toList, "selector".toList]
  schedule : ∀ mode ∈ splitSchedule (cString (defaultStringGo req.selectorSchedule "none")),
    mode = "smoothstep5".toList ∨ mode = "smoothstep7".toList

theorem comparatorSupported_iff (a : NativeArgs) : a.comparatorSupported = true ↔
    a.comparator ∈ [[], "tanh_chebyshev".toList, "logistic".toList, "selector".toList] := by
  unfold NativeArgs.comparatorSupported NativeArgs.comparatorValue
  rw [decide_eq_true_eq, mem_cons]
  by_cases blank : a.comparator = []
  · simp [blank]
  · rw [if_neg blank]
    simp [blank]

theorem unsupportedStage_eq_none : a.unsupportedStage = none ↔
    ∀ mode ∈ splitSchedule a.selectorSchedule,
      mode = "smoothstep5".toList ∨ mode = "smoothstep7".toList := by
  simp only [NativeArgs.unsupportedStage, List.find?_eq_none, Bool.and_eq_true,
    decide_eq_true_eq, not_and_or, not_not]

theorem nonempty_of_candidateRefusal {i : ℕ} (h : NativeArgs.candidateRefusal lib i lens = none) :
    ∀ len ∈ lens, len ≠ 0 := by
  induction lens generalizing i with
  | nil => simp
  | cons len lens ih =>
    rw [NativeArgs.candidateRefusal] at h
    split at h
    · simp at h
    · next positive =>
      rw [Option.or_eq_none_iff] at h
      rw [forall_mem_cons]
      exact ⟨positive, ih h.2⟩

def Library.calm : Library := ⟨fun _ => none, fun _ => .ok 0, fun _ => true⟩

theorem candidateRefusal_calm {i : ℕ} (h : ∀ len ∈ lens, len ≠ 0) :
    NativeArgs.candidateRefusal .calm i lens = none := by
  induction lens generalizing i with
  | nil => rfl
  | cons len lens ih =>
    rw [forall_mem_cons] at h
    rw [NativeArgs.candidateRefusal, if_neg h.1, ih h.2]
    rfl

section

variable {ctx : Bool} {req : FullFuseRequest} (ready : PlainReady ctx req)
  (range : req.Int32Range)

include ready range

theorem plain_modeChecks : (plainArgs ctx req).modeChecks.refusal = none ↔
    0 < int32 req.candidateCiphertexts.length ∧ 0 < req.profileDim ∧
      int32 (req.packageBytes * 8) ≤ req.payloadSlotCount := by
  have keys : ∀ len : ℕ, (ctx = false → len ≠ 0) → (!ctx && decide (len = 0)) = false := by
    intro len h
    cases ctx
    · simpa using h rfl
    · rfl
  have mult := keys req.evalKeys.evalMultFinal.length fun h => (ready.keys h).1
  have sum := keys req.evalKeys.evalSumFinal.length fun h => (ready.keys h).2
  have slots := ready.slots
  have bytes := ready.bytes
  rw [Checks.refusal_eq_none, NativeArgs.modeChecks, plainArgs]
  simp only [int32_of_inInt32 range.profileDim, int32_of_inInt32 range.packageBytes,
    int32_of_inInt32 range.payloadSlotCount, forall_mem_cons, mult, sum, ready.initiator,
    Option.any_some, Option.any_none, Option.isSome_some, Option.isSome_none]
  simp only [Bool.or_eq_false_iff, decide_eq_false_iff_not, not_le, not_lt, slots, bytes,
    decide_false, beq_false, Bool.not_true, true_and, and_true,
    not_mem_nil, false_implies, implies_true]
  exact and_assoc

theorem accepts_of_refusal (h : (plainArgs ctx req).refusal lib = none) :
    NativeAccepts req := by
  rw [NativeArgs.refusal, Option.or_eq_none_iff, plain_modeChecks ready range] at h
  obtain ⟨⟨count, dim, room⟩, h⟩ := h
  simp only [Option.or_eq_none_iff] at h
  obtain ⟨-, -, -, candidates, scoring⟩ := h
  simp only [NativeArgs.scoringRefusal, Option.or_eq_none_iff] at scoring
  obtain ⟨comparator, -, schedule, -, tree, -⟩ := scoring
  have pair : 2 ≤ int32 req.candidateCiphertexts.length := by
    by_contra lone
    rw [if_pos (show (plainArgs ctx req).nCandidates = 1 by
      show int32 req.candidateCiphertexts.length = 1; omega)] at tree
    simp at tree
  refine ⟨pair, ?_, dim, room, ?_, ?_⟩
  · have positive := nonempty_of_candidateRefusal candidates
    intro ct hct
    apply positive
    show ct.length ∈ (List.map List.length req.candidateCiphertexts).take _
    rw [← map_take]
    exact mem_map_of_mem hct
  · apply (comparatorSupported_iff (plainArgs ctx req)).mp
    by_contra unsupported
    rw [if_neg unsupported] at comparator
    simp at comparator
  · apply unsupportedStage_eq_none (a := plainArgs ctx req).mp
    rw [if_pos (show 2 ≤ (plainArgs ctx req).nCandidates from pair)] at schedule
    simpa using schedule

theorem refusal_calm (accepts : NativeAccepts req) : (plainArgs ctx req).refusal .calm = none := by
  have pair := accepts.pair
  have count : (plainArgs ctx req).nCandidates = int32 req.candidateCiphertexts.length := rfl
  simp only [NativeArgs.refusal, Option.or_eq_none_iff]
  refine ⟨(plain_modeChecks ready range).mpr ⟨by omega, accepts.dim, accepts.room⟩, rfl, rfl,
    rfl, ?_, ?_⟩
  · apply candidateRefusal_calm
    intro len hlen
    change len ∈ (List.map List.length req.candidateCiphertexts).take _ at hlen
    rw [← map_take, mem_map] at hlen
    obtain ⟨ct, hct, rfl⟩ := hlen
    exact accepts.nonempty ct hct
  · have supported := (comparatorSupported_iff (plainArgs ctx req)).mpr accepts.comparator
    have stages := unsupportedStage_eq_none (a := plainArgs ctx req).mpr accepts.schedule
    simp only [NativeArgs.scoringRefusal, Option.or_eq_none_iff, supported, stages, if_true]
    refine ⟨trivial, rfl, by split <;> rfl, rfl, ?_, rfl⟩
    rw [if_neg (by omega)]

end

theorem fuseChunks_calm (todo c : ℕ) : fuseChunks .calm todo c = (List.replicate todo 0, none) := by
  induction todo generalizing c with
  | zero => rfl
  | succ todo ih =>
    rw [fuseChunks]
    rw [ih]
    rfl

theorem call_calm {firsts : List ℕ} (nonempty : 0 ∉ firsts)
    (accepted : a.refusal .calm = none) (failure : String) (unpack : List ℕ → ℤ → ℕ → Outcome) :
    call .calm firsts a failure unpack = ⟨List.range a.nChunks.toNat, 0,
      unpack (List.replicate a.nChunks.toNat 0) a.nChunks 0⟩ := by
  unfold call chunkedFusePayloadCKKSImpl
  rw [if_neg nonempty]
  simp only [accepted, fuseChunks_calm]
  simp [Library.calm]

theorem plain_call_iff {ctx : Bool} (ready : PlainReady ctx req)
    (range : req.Int32Range) {firsts : List ℕ}
    (blob : 0 ∈ firsts ↔ ∀ ct ∈ req.candidateCiphertexts, ct.length = 0) (failure : String) :
    (∀ lib, (call lib firsts (plainArgs ctx req) failure unpackPlain).outLen < 2 ^ 31 →
      (call lib firsts (plainArgs ctx req) failure unpackPlain).InBounds) ↔
    (∃ ct ∈ req.candidateCiphertexts, ct.length ≠ 0) ∧
      (NativeAccepts req → FewChunks req.profileDim req.payloadSlotCount) := by
  have dims : (plainArgs ctx req).profileDim = req.profileDim := int32_of_inInt32 range.profileDim
  have slots : (plainArgs ctx req).payloadSlotCount = req.payloadSlotCount :=
    int32_of_inInt32 range.payloadSlotCount
  have count : 0 < req.profileDim → ((0 ≤ (plainArgs ctx req).nChunks ∧
      (plainArgs ctx req).nChunks ≤ 256) ↔ FewChunks req.profileDim req.payloadSlotCount) := by
    intro dim
    have := nChunks_mem_iff (a := plainArgs ctx req) (by omega)
      (by have := range.profileDim.2; omega) (by have := ready.slots; omega)
      (by have := range.payloadSlotCount.2; omega)
    rwa [dims, slots] at this
  constructor
  · intro safe
    have nonempty : 0 ∉ firsts := by
      intro empty
      have trapped := safe .calm
      simp only [call, if_pos empty] at trapped
      exact (trapped (by omega)).index rfl
    refine ⟨by rw [blob] at nonempty; push Not at nonempty; exact nonempty, ?_⟩
    intro accepts
    rw [← count accepts.dim]
    have inside := safe .calm
    rw [call_calm nonempty (refusal_calm ready range accepts)] at inside
    have bounds := inside (by simp)
    constructor
    · by_contra negative
      apply bounds.makeLen
      simp only [unpackPlain, withBlob]
      rw [if_neg (by unfold maxChunks; omega), if_neg (by decide), if_pos (by omega)]
    · by_contra many
      have := bounds.writes 256 (mem_range.mpr (by omega))
      omega
  · intro bounded lib short
    obtain ⟨⟨ct, hct, some⟩, few⟩ := bounded
    have nonempty : 0 ∉ firsts := fun empty => some (blob.mp empty ct hct)
    cases refusal : (plainArgs ctx req).refusal lib with
    | some err =>
      unfold call chunkedFusePayloadCKKSImpl
      rw [if_neg nonempty]
      simp only [refusal]
      exact ⟨by simp, by simp, by simp, by simp⟩
    | none =>
      have accepts := accepts_of_refusal ready range refusal
      obtain ⟨low, high⟩ := (count accepts.dim).mpr (few accepts)
      apply call_inBounds nonempty high
      intro lens full sum
      obtain ⟨chunks, returned⟩ := unpackPlain_returns full low high (by omega)
      rw [returned]
      simp

def EntryPoint.plainChecks (handle : Bool) (req : FullFuseRequest) : EntryPoint → Checks
  | .payload => payloadChecks req
  | .payloadWithContext => payloadWithContextChecks handle req
  | _ => []

def PlainBounded (entry : EntryPoint) (handle : Bool) (req : FullFuseRequest) : Prop :=
  (entry.plainChecks handle req).refusal = none →
    (∃ ct ∈ req.candidateCiphertexts, ct.length ≠ 0) ∧
      (NativeAccepts req → FewChunks req.profileDim req.payloadSlotCount)

theorem encrypted_inBounds {entry : EntryPoint} (encrypted : entry.encrypted = true)
    (range : req.Int32Range) (lib : Library) (handle : Bool) :
    (entry.run lib handle req).InBounds := by
  have inputs : (encryptedInputFuseRequestFromFull req).fullFuseRequest.Int32Range :=
    ⟨range.profileDim, show InInt32 0 by decide, range.payloadSlotCount⟩
  cases entry with
  | payload | payloadWithContext => exact absurd encrypted (by decide)
  | encryptedPayload => exact encryptedPayloadFusion_inBounds range lib false
  | encryptedPayloadWithContext =>
    simp only [EntryPoint.run, chunkedFuseEncryptedPayloadCKKSWithContext]
    split
    · exact encryptedPayloadFusion_inBounds range lib true
    · exact refuse_inBounds _
  | encryptedInputs => exact encryptedInputsFusion_inBounds inputs lib false
  | encryptedInputsWithContext =>
    simp only [EntryPoint.run, chunkedFuseEncryptedInputsCKKSWithContext]
    split
    · exact encryptedInputsFusion_inBounds inputs lib true
    · exact refuse_inBounds _

theorem plain_inBounds_iff {entry : EntryPoint} (plain : entry.encrypted = false)
    (range : req.Int32Range) (handle : Bool) :
    (∀ lib, (entry.run lib handle req).outLen < 2 ^ 31 →
      (entry.run lib handle req).InBounds) ↔ PlainBounded entry handle req := by
  cases entry with
  | payload =>
    simp only [EntryPoint.run, chunkedFusePayloadCKKS, PlainBounded, EntryPoint.plainChecks]
    cases accepted : (payloadChecks req).refusal with
    | some err => simp [refuse_inBounds]
    | none =>
      have ready := payload_ready accepted
      obtain ⟨mult, sum⟩ := ready.keys rfl
      simp only [true_implies]
      apply plain_call_iff ready range
      rw [mem_append, ready.firsts, or_iff_left]
      simp only [mem_cons, not_mem_nil, or_false]
      omega
  | payloadWithContext =>
    simp only [EntryPoint.run, chunkedFusePayloadCKKSWithContext, PlainBounded,
      EntryPoint.plainChecks]
    cases accepted : (payloadWithContextChecks handle req).refusal with
    | some err => simp [refuse_inBounds]
    | none =>
      have ready := payloadWithContext_ready accepted
      simp only [true_implies]
      exact plain_call_iff ready range ready.firsts _
  | encryptedPayload | encryptedPayloadWithContext | encryptedInputs
  | encryptedInputsWithContext => exact absurd plain (by decide)

/-- The encrypted entry points stay in bounds whatever the library does. The plain ones do, for
every output a C `int` can count, exactly where the request is bounded. -/
theorem fusion_inBounds (entry : EntryPoint) (handle : Bool) (req : FullFuseRequest)
    (range : req.Int32Range) :
    (entry.encrypted = true → ∀ lib, (entry.run lib handle req).InBounds) ∧
    (entry.encrypted = false →
      ((∀ lib, (entry.run lib handle req).outLen < 2 ^ 31 →
        (entry.run lib handle req).InBounds) ↔ PlainBounded entry handle req)) :=
  ⟨fun encrypted lib => encrypted_inBounds encrypted range lib handle,
    fun plain => plain_inBounds_iff plain range handle⟩

def sample (profileDim payloadSlotCount : ℤ) : FullFuseRequest where
  initiatorCiphertext := [1]
  candidateCiphertexts := [[1], [2]]
  candidateLatQ := [0, 0]
  candidateLonQ := [0, 0]
  candidateDistanceCiphertexts := []
  candidateBrownies := [0, 0]
  candidatePackages := [[7], [8]]
  candidatePayloadCiphertexts := []
  profileDim := profileDim
  comparator := ""
  selectorSchedule := ""
  evalKeys := ⟨[1], [1]⟩
  packageBytes := 1
  payloadSlotCount := payloadSlotCount

theorem sample_inBounds :
    (EntryPoint.payload.run .calm false (sample 32 8192)).InBounds ∧ FewChunks 32 8192 :=
  ⟨((fusion_inBounds .payload false (sample 32 8192)
      ⟨by decide, by decide, by decide⟩).2 rfl).mpr
      (fun _ => ⟨⟨[1], by decide, by decide⟩, fun _ => by decide +kernel⟩) .calm
      (by decide +kernel),
    by decide +kernel⟩

/-- One slot past 256 chunks of 32 and the native loop writes behind the array; the cap is only read
after the call. -/
theorem sample_writes_behind :
    (sample 32 8193).Int32Range ∧
      256 ∈ (EntryPoint.payload.run .calm false (sample 32 8193)).writes ∧
      256 ∈ (EntryPoint.payloadWithContext.run .calm true (sample 32 8193)).writes :=
  ⟨⟨by decide, by decide, by decide⟩, by decide +kernel, by decide +kernel⟩

end ChunkedFusion

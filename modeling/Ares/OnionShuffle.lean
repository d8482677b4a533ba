import Ares.ByteStrings

/-! `BuildOnion` and `PeelBatch` over the ECIES envelopes of the package, and the rounds in which
the peelers take the batch in turn. -/

namespace OnionShuffle

open List

export ByteStrings (Bytes)

/-- The curve and the cipher; public keys have thirty-two bytes. -/
structure Primitives where
  publicBytes : Bytes → Bytes
  ecdh : Bytes → Bytes → Except String Bytes
  deriveKey : Bytes → Bytes
  gcmSeal : (key nonce plaintext : Bytes) → Bytes
  gcmOpen : (key nonce ciphertext : Bytes) → Option Bytes
  publicBytes_length : ∀ k, (publicBytes k).length = 32

structure Draw where
  eph : Bytes
  nonce : Bytes
  nonce_length : nonce.length = 12

section

variable (c : Primitives)

def eciesEncrypt (recipientPub : Bytes) (d : Draw) (plaintext : Bytes) : Except String Bytes :=
  if recipientPub.length ≠ 32 then
    .error "onion: bad recipient pubkey: crypto/ecdh: invalid public key"
  else
    match c.ecdh d.eph recipientPub with
    | .error e => .error ("onion: ecdh: " ++ e)
    | .ok shared =>
      .ok (c.publicBytes d.eph ++ d.nonce ++ c.gcmSeal (c.deriveKey shared) d.nonce plaintext)

def eciesDecrypt (recipientPriv envelope : Bytes) : Except String Bytes :=
  if envelope.length < 32 + 12 then .error "onion: envelope too short"
  else if recipientPriv.length ≠ 32 then
    .error "onion: bad recipient privkey: crypto/ecdh: invalid private key size"
  else
    match c.ecdh recipientPriv (envelope.take 32) with
    | .error e => .error ("onion: ecdh: " ++ e)
    | .ok shared =>
      let nonce := (envelope.drop 32).take 12
      match c.gcmOpen (c.deriveKey shared) nonce (envelope.drop (32 + 12)) with
      | none => .error "onion: aead open: cipher: message authentication failed"
      | some plaintext => .ok plaintext

def Matching (recipientPriv recipientPub : Bytes) : Prop :=
  ∀ d plaintext envelope, eciesEncrypt c recipientPub d plaintext = .ok envelope →
    eciesDecrypt c recipientPriv envelope = .ok plaintext

variable {c}

theorem encrypted_ne_nil {recipientPub plaintext envelope : Bytes} {d : Draw}
    (sealed : eciesEncrypt c recipientPub d plaintext = .ok envelope) : envelope ≠ [] := by
  have positive : 0 < d.nonce.length := by
    rw [d.nonce_length]
    decide
  rw [eciesEncrypt] at sealed
  split_ifs at sealed
  split at sealed
  · cases sealed
  · cases sealed
    intro empty
    simp only [append_eq_nil_iff] at empty
    rw [empty.1.2] at positive
    exact absurd positive (lt_irrefl 0)

/-- Both sides of the exchange derive one key, and the cipher opens what it sealed. -/
structure Primitives.Lawful (c : Primitives) : Prop where
  ecdh_comm : ∀ a b, c.ecdh a (c.publicBytes b) = c.ecdh b (c.publicBytes a)
  open_seal : ∀ key nonce plaintext,
    c.gcmOpen key nonce (c.gcmSeal key nonce plaintext) = some plaintext

theorem Primitives.Lawful.matching (lawful : c.Lawful) {priv : Bytes} (length : priv.length = 32) :
    Matching c priv (c.publicBytes priv) := by
  intro d plaintext envelope sealed
  have head := c.publicBytes_length d.eph
  rw [eciesEncrypt, if_neg (not_not.mpr (c.publicBytes_length priv)), lawful.ecdh_comm] at sealed
  cases shared : c.ecdh priv (c.publicBytes d.eph) with
  | error e =>
    rw [shared] at sealed
    cases sealed
  | ok key =>
    simp only [shared, Except.ok.injEq] at sealed
    subst sealed
    have long : ¬ (c.publicBytes d.eph ++ d.nonce ++
        c.gcmSeal (c.deriveKey key) d.nonce plaintext).length < 32 + 12 := by
      simp only [length_append, d.nonce_length]
      omega
    have first : (c.publicBytes d.eph ++ d.nonce ++
        c.gcmSeal (c.deriveKey key) d.nonce plaintext).take 32 = c.publicBytes d.eph := by
      rw [append_assoc, take_left' head]
    have second : ((c.publicBytes d.eph ++ d.nonce ++
        c.gcmSeal (c.deriveKey key) d.nonce plaintext).drop 32).take 12 = d.nonce := by
      rw [append_assoc, drop_left' head, take_left' d.nonce_length]
    have third : (c.publicBytes d.eph ++ d.nonce ++
        c.gcmSeal (c.deriveKey key) d.nonce plaintext).drop (32 + 12) =
          c.gcmSeal (c.deriveKey key) d.nonce plaintext := by
      apply drop_left'
      rw [length_append, head, d.nonce_length]
    rw [eciesDecrypt, if_neg long, if_neg (not_not.mpr length), first, shared]
    simp only [second, third, lawful.open_seal]

end

section

variable (c : Primitives)

def copyOntoNil (data : Bytes) : Option Bytes := if data = [] then none else some data

def wrapLayers (pubs : List Bytes) (selfIndex : ℤ) (draws : ℕ → Draw) :
    ℕ → Bytes → Option Bytes → Except String (Bytes × Option Bytes)
  | 0, data, selfMemo => .ok (data, selfMemo)
  | i + 1, data, selfMemo =>
    match eciesEncrypt c (pubs.getD i []) (draws i) data with
    | .error e => .error ("onion: wrap layer " ++ toString i ++ ": " ++ e)
    | .ok enc =>
      wrapLayers pubs selfIndex draws i enc (if i = selfIndex then copyOntoNil enc else selfMemo)

def buildOnion (payload : Bytes) (peelOrderPubs : List Bytes) (selfIndex : ℤ)
    (draws : ℕ → Draw) : Except String (Bytes × Option Bytes) :=
  if selfIndex < 0 ∨ peelOrderPubs.length ≤ selfIndex then
    .error ("onion: selfIndex " ++ toString selfIndex ++ " out of range [0," ++
      toString peelOrderPubs.length ++ ")")
  else wrapLayers c peelOrderPubs selfIndex draws peelOrderPubs.length payload none

def peelItems (myPriv : Bytes) (selfMemo : Option Bytes) :
    ℕ → List Bytes → ℤ → Except String (List Bytes × ℤ)
  | _, [], ownIndex => .ok ([], ownIndex)
  | i, o :: onions, ownIndex =>
    match eciesDecrypt c myPriv o with
    | .error e => .error ("onion: peel item " ++ toString i ++ ": " ++ e)
    | .ok inner => do
      let (peeled, ownIndex) ←
        peelItems myPriv selfMemo (i + 1) onions (if selfMemo = some o then i else ownIndex)
      return (inner :: peeled, ownIndex)

def peelBatch (myPriv : Bytes) (selfMemo : Option Bytes) (onions : List Bytes) :
    Except String (List Bytes × ℤ) :=
  match peelItems c myPriv selfMemo 0 onions (-1) with
  | .error e => .error e
  | .ok (peeled, ownIndex) =>
    if selfMemo.isSome ∧ ownIndex < 0 then
      .error "onion: selfMemo did not match any item in batch"
    else .ok (peeled, ownIndex)

variable {c} {draws : ℕ → Draw} {pubs : List Bytes}

def layered (c : Primitives) (payload : Bytes) (draws : ℕ → Draw) : ℕ → List Bytes →
    Except String Bytes
  | _, [] => .ok payload
  | k, pub :: pubs => do
    let inner ← layered c payload draws (k + 1) pubs
    eciesEncrypt c pub (draws k) inner

theorem layered_drop {payload : Bytes} {k : ℕ} (lt : k < pubs.length) :
    layered c payload draws k (pubs.drop k) =
      layered c payload draws (k + 1) (pubs.drop (k + 1)) >>=
        eciesEncrypt c (pubs.getD k []) (draws k) := by
  rw [drop_eq_getElem_cons, layered, getD_eq_getElem _ _ lt]

theorem wrapLayers_ok {payload : Bytes} {selfIndex i : ℕ}
    {data onion : Bytes} {selfMemo memo : Option Bytes} (le : i ≤ pubs.length)
    (wrapped : layered c payload draws i (pubs.drop i) = .ok data)
    (out : wrapLayers c pubs selfIndex draws i data selfMemo = .ok (onion, memo)) :
    layered c payload draws 0 pubs = .ok onion ∧
      if selfIndex < i then
        ∃ own, layered c payload draws selfIndex (pubs.drop selfIndex) = .ok own ∧ memo = some own
      else memo = selfMemo := by
  induction i generalizing data selfMemo with
  | zero =>
    cases out
    exact ⟨wrapped, rfl⟩
  | succ i ih =>
    rw [wrapLayers] at out
    cases sealed : eciesEncrypt c (pubs.getD i []) (draws i) data with
    | error e =>
      rw [sealed] at out
      cases out
    | ok enc =>
      rw [sealed] at out
      have next : layered c payload draws i (pubs.drop i) = .ok enc := by
        rw [layered_drop (by omega), wrapped]
        exact sealed
      obtain ⟨outer, memoIs⟩ := ih (by omega) next out
      refine ⟨outer, ?_⟩
      by_cases below : selfIndex < i
      · rw [if_pos below] at memoIs
        rw [if_pos (by omega)]
        exact memoIs
      · rw [if_neg below] at memoIs
        by_cases own : i = selfIndex
        · rw [if_pos (by omega)]
          refine ⟨enc, own ▸ next, ?_⟩
          rw [memoIs, if_pos (by exact_mod_cast own), copyOntoNil, if_neg (encrypted_ne_nil sealed)]
        · rw [if_neg (by omega), memoIs, if_neg (by exact_mod_cast own)]

theorem buildOnion_ok {payload onion : Bytes} {selfIndex : ℕ} {memo : Option Bytes}
    (out : buildOnion c payload pubs selfIndex draws = .ok (onion, memo)) :
    layered c payload draws 0 pubs = .ok onion ∧
      ∃ own, layered c payload draws selfIndex (pubs.drop selfIndex) = .ok own ∧
        memo = some own := by
  rw [buildOnion] at out
  by_cases outside : (selfIndex : ℤ) < 0 ∨ (pubs.length : ℤ) ≤ selfIndex
  · rw [if_pos outside] at out
    cases out
  · rw [if_neg outside] at out
    have start : layered c payload draws pubs.length (pubs.drop pubs.length) = .ok payload := by
      rw [drop_length, layered]
    obtain ⟨outer, memoIs⟩ := wrapLayers_ok le_rfl start out
    rw [if_pos (by omega)] at memoIs
    exact ⟨outer, memoIs⟩

def lastMatch (selfMemo : Option Bytes) : ℕ → List Bytes → ℤ → ℤ
  | _, [], ownIndex => ownIndex
  | i, o :: onions, ownIndex =>
    lastMatch selfMemo (i + 1) onions (if selfMemo = some o then i else ownIndex)

theorem lastMatch_absent {own : Bytes} {onions : List Bytes} (absent : own ∉ onions) (i : ℕ)
    (ownIndex : ℤ) : lastMatch (some own) i onions ownIndex = ownIndex := by
  induction onions generalizing i ownIndex with
  | nil => rfl
  | cons o onions ih =>
    rw [mem_cons, not_or] at absent
    rw [lastMatch, ih absent.2, if_neg (by simpa using absent.1)]

theorem lastMatch_unique {own : Bytes} {before after : List Bytes} (absent : own ∉ after) (i : ℕ)
    (ownIndex : ℤ) :
    lastMatch (some own) i (before ++ own :: after) ownIndex = (i + before.length : ℕ) := by
  induction before generalizing i ownIndex with
  | nil =>
    rw [nil_append, lastMatch, lastMatch_absent absent, if_pos rfl]
    rfl
  | cons o before ih =>
    rw [cons_append, lastMatch, ih, length_cons]
    omega

theorem peelItems_ok {myPriv : Bytes} {onions peeled : List Bytes}
    (opens : List.Forall₂ (fun o inner => eciesDecrypt c myPriv o = .ok inner) onions peeled)
    (selfMemo : Option Bytes) (i : ℕ) (ownIndex : ℤ) :
    peelItems c myPriv selfMemo i onions ownIndex =
      .ok (peeled, lastMatch selfMemo i onions ownIndex) := by
  induction opens generalizing i ownIndex with
  | nil => rfl
  | cons head _ ih =>
    rw [peelItems, head]
    simp only [ih]
    rfl

theorem peelBatch_ok {myPriv own : Bytes} {before after peeled : List Bytes}
    (opens : List.Forall₂ (fun o inner => eciesDecrypt c myPriv o = .ok inner)
      (before ++ own :: after) peeled) (absent : own ∉ after) :
    peelBatch c myPriv (some own) (before ++ own :: after) = .ok (peeled, before.length) := by
  have here : ¬ ((some own).isSome ∧ ((0 + before.length : ℕ) : ℤ) < 0) := by omega
  rw [peelBatch, peelItems_ok opens, lastMatch_unique absent]
  simp only [if_neg here]
  rw [Nat.zero_add]

end

structure Party where
  slotPriv : Bytes
  slotPub : Bytes
  payload : Bytes
  draws : ℕ → Draw

section

variable {n : ℕ} {c : Primitives} {parties : Fin n → Party} {batch : List (Fin n × Bytes)}

def peelOrder (parties : Fin n → Party) : List Bytes := List.ofFn fun i => (parties i).slotPub

def layer (c : Primitives) (parties : Fin n → Party) (b : Fin n) (k : ℕ) : Except String Bytes :=
  layered c (parties b).payload (parties b).draws k ((peelOrder parties).drop k)

structure Built (c : Primitives) (parties : Fin n → Party) where
  onion : Fin n → Bytes
  selfMemo : Fin n → Option Bytes
  builds : ∀ b, buildOnion c (parties b).payload (peelOrder parties) (b : ℕ) (parties b).draws =
    .ok (onion b, selfMemo b)

/-- No two encryptions gave one ciphertext, and none gave a payload. -/
structure Fresh (c : Primitives) (parties : Fin n → Party) : Prop where
  apart : ∀ b b' k k' : Fin n, layer c parties b k = layer c parties b' k' → b = b' ∧ k = k'
  notPayload : ∀ b b' k : Fin n, layer c parties b k ≠ .ok (parties b').payload

/-- The batches that can stand before round `k`, each item with the participant who built it.
The peeled layers come back in the order of the batch; then the batch is reordered. -/
inductive Shuffled (built : Built c parties) : ℕ → List (Fin n × Bytes) → Prop
  | start {batch : List (Fin n × Bytes)} :
    batch.Perm (List.ofFn fun b => (b, built.onion b)) → Shuffled built 0 batch
  | round {k : Fin n} {batch next : List (Fin n × Bytes)} {peeled : List Bytes} {ownIndex : ℤ} :
    Shuffled built k batch →
    peelBatch c (parties k).slotPriv (built.selfMemo k) (batch.map Prod.snd) =
      .ok (peeled, ownIndex) →
    next.Perm ((batch.map Prod.fst).zip peeled) → Shuffled built (k + 1) next

theorem layer_end (b : Fin n) : layer c parties b n = .ok (parties b).payload := by
  rw [layer, drop_of_length_le (by simp [peelOrder]), layered]

theorem layer_round (b k : Fin n) :
    layer c parties b k =
      layer c parties b (k + 1) >>= eciesEncrypt c (parties k).slotPub ((parties b).draws k) := by
  have lt : (k : ℕ) < (peelOrder parties).length := by simp [peelOrder]
  have pub : (peelOrder parties).getD k [] = (parties k).slotPub := by
    simp [peelOrder]
  rw [layer, layered_drop lt, pub, layer]

/-- Before round `k` every participant has one item in the batch, under its layers from `k` on. -/
structure Carries (c : Primitives) (parties : Fin n → Party) (k : ℕ)
    (batch : List (Fin n × Bytes)) : Prop where
  builders : (batch.map Prod.fst).Perm (List.finRange n)
  items : ∀ x ∈ batch, layer c parties x.1 k = .ok x.2

theorem Carries.perm {k : ℕ} {batch next : List (Fin n × Bytes)}
    (carries : Carries c parties k batch) (perm : next.Perm batch) : Carries c parties k next :=
  ⟨(perm.map _).trans carries.builders, fun x mem => carries.items x (perm.mem_iff.mp mem)⟩

theorem carries_start (built : Built c parties) :
    Carries c parties 0 (List.ofFn fun b => (b, built.onion b)) := by
  constructor
  · rw [map_ofFn]
    exact Perm.of_eq (ofFn_id n)
  · intro x mem
    obtain ⟨b, rfl⟩ := (mem_ofFn' _ _).mp mem
    exact (buildOnion_ok (built.builds b)).1

theorem peel_layer {b k : Fin n} {data : Bytes}
    (key : Matching c (parties k).slotPriv (parties k).slotPub)
    (item : layer c parties b k = .ok data) :
    ∃ inner, eciesDecrypt c (parties k).slotPriv data = .ok inner ∧
      layer c parties b (k + 1) = .ok inner := by
  rw [layer_round] at item
  cases next : layer c parties b (k + 1) with
  | error e =>
    rw [next] at item
    cases item
  | ok inner =>
    rw [next] at item
    exact ⟨inner, key _ _ _ item, rfl⟩

theorem selfMemo_eq (built : Built c parties) {k : Fin n} {own : Bytes}
    (item : layer c parties k k = .ok own) : built.selfMemo k = some own := by
  obtain ⟨-, data, inner, memo⟩ := buildOnion_ok (built.builds k)
  rw [layer, inner] at item
  cases item
  exact memo

theorem Carries.own_split {k : Fin n}
    (carries : Carries c parties k batch) (fresh : Fresh c parties) :
    ∃ before own after, batch = before ++ (k, own) :: after ∧ own ∉ after.map Prod.snd := by
  have mem := carries.builders.mem_iff.mpr (mem_finRange k)
  obtain ⟨⟨b, own⟩, inBatch, rfl⟩ := mem_map.mp mem
  obtain ⟨before, after, rfl⟩ := append_of_mem inBatch
  refine ⟨before, own, after, rfl, ?_⟩
  intro again
  obtain ⟨⟨b', own'⟩, later, rfl⟩ := mem_map.mp again
  have same := (carries.items _ inBatch).trans (carries.items (b', own') (by simp [later])).symm
  have builder : b = b' := (fresh.apart b b' b b same).1
  have once := carries.builders.nodup_iff.mpr (nodup_finRange n)
  rw [map_append, map_cons] at once
  have twice : b ∈ after.map Prod.fst := mem_map.mpr ⟨(b', own'), later, builder.symm⟩
  exact (nodup_cons.mp once.of_append_right).1 twice

theorem Carries.round {k : Fin n} (built : Built c parties)
    (carries : Carries c parties k batch) (fresh : Fresh c parties)
    (key : Matching c (parties k).slotPriv (parties k).slotPub) :
    ∃ (peeled : List Bytes) (i : ℕ),
      peelBatch c (parties k).slotPriv (built.selfMemo k) (batch.map Prod.snd) = .ok (peeled, i) ∧
      (batch.map Prod.fst)[i]? = some k ∧ peeled.length = batch.length ∧
      Carries c parties (k + 1) ((batch.map Prod.fst).zip peeled) := by
  let inner : Fin n × Bytes → Bytes := fun x => (layer c parties x.1 (k + 1)).toOption.getD []
  have peels : ∀ x ∈ batch, eciesDecrypt c (parties k).slotPriv x.2 = .ok (inner x) ∧
      layer c parties x.1 (k + 1) = .ok (inner x) := by
    intro x mem
    obtain ⟨data, opens, next⟩ := peel_layer key (carries.items x mem)
    have eq : inner x = data := by simp only [inner, next, Except.toOption, Option.getD_some]
    rw [eq]
    exact ⟨opens, next⟩
  have opens : List.Forall₂ (fun o data => eciesDecrypt c (parties k).slotPriv o = .ok data)
      (batch.map Prod.snd) (batch.map inner) := by
    rw [forall₂_map_left_iff, forall₂_map_right_iff, forall₂_same]
    exact fun x mem => (peels x mem).1
  obtain ⟨before, own, after, rfl, absent⟩ := carries.own_split fresh
  rw [selfMemo_eq built (carries.items (k, own) (by simp))]
  refine ⟨(before ++ (k, own) :: after).map inner, before.length, ?_, by simp,
    length_map _, ?_⟩
  · rw [map_append, map_cons] at opens ⊢
    rw [peelBatch_ok opens absent, length_map]
  · rw [zip_map']
    constructor
    · rw [map_map]
      exact carries.builders
    · intro x mem
      obtain ⟨y, yIn, rfl⟩ := mem_map.mp mem
      exact (peels y yIn).2

theorem Shuffled.carries {built : Built c parties} (fresh : Fresh c parties)
    (keys : ∀ i, Matching c (parties i).slotPriv (parties i).slotPub) {k : ℕ}
    (shuffled : Shuffled built k batch) : Carries c parties k batch := by
  induction shuffled with
  | start perm => exact (carries_start built).perm perm
  | round _ peels perm ih =>
    obtain ⟨peeled, i, out, -, -, next⟩ := ih.round built fresh (keys _)
    rw [peels] at out
    cases out
    exact next.perm perm

theorem Carries.payloads (carries : Carries c parties n batch) :
    (batch.map Prod.snd).Perm (List.ofFn fun b => (parties b).payload) := by
  have each : batch.map Prod.snd = (batch.map Prod.fst).map fun b => (parties b).payload := by
    rw [map_map]
    apply map_congr_left
    intro x mem
    have item := carries.items x mem
    rw [layer_end] at item
    exact (Except.ok.inj item).symm
  rw [each, ofFn_eq_map]
  exact carries.builders.map _

theorem exists_shuffled (built : Built c parties) (fresh : Fresh c parties)
    (keys : ∀ i, Matching c (parties i).slotPriv (parties i).slotPub) (k : ℕ) (le : k ≤ n) :
    ∃ batch, Shuffled built k batch := by
  induction k with
  | zero => exact ⟨_, .start (Perm.refl _)⟩
  | succ k ih =>
    obtain ⟨batch, shuffled⟩ := ih (by omega)
    have carries := shuffled.carries fresh keys
    obtain ⟨peeled, i, out, -⟩ := Carries.round (k := ⟨k, le⟩) built carries fresh (keys _)
    exact ⟨_, .round shuffled out (Perm.refl _)⟩

/-- The onion shuffle, for any number of participants and any reordering between the rounds: no
round fails, the peeler of a round finds its own item, no item is a payload before the last round is
over, and then the batch holds the payloads. -/
theorem shuffle_recovers_payloads (built : Built c parties) (fresh : Fresh c parties)
    (keys : ∀ i, Matching c (parties i).slotPriv (parties i).slotPub) :
    (∀ (k : Fin n) batch, Shuffled built k batch → (batch.map Prod.fst).Perm (List.finRange n) ∧
      (∀ b, (parties b).payload ∉ batch.map Prod.snd) ∧ ∃ (peeled : List Bytes) (i : ℕ),
        peelBatch c (parties k).slotPriv (built.selfMemo k) (batch.map Prod.snd) = .ok (peeled, i) ∧
        peeled.length = n ∧ (batch.map Prod.fst)[i]? = some k) ∧ (∃ batch, Shuffled built n batch) ∧
    ∀ batch, Shuffled built n batch →
      (batch.map Prod.snd).Perm (List.ofFn fun b => (parties b).payload) := by
  refine ⟨?_, exists_shuffled built fresh keys n le_rfl, ?_⟩
  · intro k batch shuffled
    have carries := shuffled.carries fresh keys
    have size : batch.length = n := by
      have lengths := carries.builders.length_eq
      rwa [length_map, length_finRange] at lengths
    obtain ⟨peeled, i, out, own, length, -⟩ := carries.round built fresh (keys k)
    refine ⟨carries.builders, ?_, peeled, i, out, length.trans size, own⟩
    intro b bare
    obtain ⟨x, mem, eq⟩ := mem_map.mp bare
    have item := carries.items x mem
    rw [eq] at item
    exact fresh.notPayload x.1 b k item
  · intro batch shuffled
    exact (shuffled.carries fresh keys).payloads

end

def additive : Primitives where
  publicBytes k := (k ++ List.replicate 32 0).take 32
  ecdh a b := .ok (List.zipWith (· + ·) ((a ++ List.replicate 32 0).take 32) b)
  deriveKey shared := shared
  gcmSeal key _ plaintext := plaintext.map (· + key.headD 0)
  gcmOpen key _ ciphertext := some (ciphertext.map (· - key.headD 0))
  publicBytes_length k := by
    rw [length_take, length_append, length_replicate]
    omega

theorem additive_lawful : additive.Lawful := by
  constructor
  · intro a b
    simp only [additive, Except.ok.injEq]
    exact zipWith_comm_of_comm UInt8.add_comm
  · simp [additive, Function.comp_def]

def duelParty (b : Fin 2) : Party where
  slotPriv := List.replicate 32 (5 + b.val.toUInt8)
  slotPub := additive.publicBytes (List.replicate 32 (5 + b.val.toUInt8))
  payload := [b.val.toUInt8]
  draws k := ⟨[7], List.replicate 12 (2 * b.val + k).toUInt8, length_replicate⟩

theorem duel_fresh : Fresh additive duelParty := by
  constructor <;> decide +kernel

def duelOnion (b : Fin 2) : Bytes × Option Bytes :=
  (buildOnion additive (duelParty b).payload (peelOrder duelParty) (b : ℕ)
    (duelParty b).draws).toOption.getD ([], none)

def duelBuilt : Built additive duelParty where
  onion b := (duelOnion b).1
  selfMemo b := (duelOnion b).2
  builds := by decide +kernel

theorem shuffle_recovers_payloads_duel :
    (∃ batch, Shuffled duelBuilt 2 batch) ∧
      ∀ batch, Shuffled duelBuilt 2 batch → (batch.map Prod.snd).Perm [[0], [1]] :=
  (shuffle_recovers_payloads duelBuilt duel_fresh fun _ =>
    additive_lawful.matching (by simp [duelParty])).2

end OnionShuffle

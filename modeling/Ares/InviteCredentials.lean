import Ares.Credentials
import Ares.HexDecoding

/-! The Swift client mints invite credentials for the Go issuer to accept. HMAC, the hash and the
JSON codecs are parameters. -/

namespace InviteCredentials

open ByteStrings ClientLineage Credentials HexDecoding LineageNodes List

/-- `SigningKeyFromEnv`, given what the variable holds. -/
def signingKeyFromEnv (raw : String) (production : Bool) : Bytes :=
  if raw ≠ "" then
    match decodeString raw with
    | some decoded => if 32 ≤ decoded.length then decoded else utf8 raw
    | none => utf8 raw
  else if production then []
  else utf8 "ares-dev-credential-signing-key-do-not-use"

/-- The key `InviteCredential.init` takes from the same text. -/
def signingKey (raw : String) : Bytes :=
  match Swift.dialect.fromHex raw with
  | some decoded => if 32 ≤ decoded.length then decoded else utf8 raw
  | none => utf8 raw

/-- The members of the minted JSON object; `account_id` is not among them. -/
structure Minted where
  version : ℤ
  issuer : Bytes
  subjectHash : Bytes
  provider : Bytes
  tokenHash : Bytes
  nonce : Bytes
  issuedAt : ℤ
  expiresAt : ℤ
  signature : Bytes

/-- What `json.Unmarshal` makes of them: a member that is missing keeps the zero value. -/
def Minted.envelope (m : Minted) : Envelope :=
  ⟨⟨m.version, m.issuer, [], m.subjectHash, m.provider, m.tokenHash, m.nonce, m.issuedAt,
    m.expiresAt⟩, m.signature⟩

/-- `Int64` of a time interval cuts towards zero. -/
def seconds (t : ℚ) : ℤ := if 0 ≤ t then t.floor else t.ceil

section Minting

variable (hmac : Bytes → Bytes → Bytes) (sha256 : Bytes → Bytes) (key : Bytes)

def signClaims (issuer provider nonce subjectHash tokenHash : Bytes) (issuedAt expiresAt : ℤ) :
    Bytes :=
  let parts := sortBytes [utf8 "account_id=", utf8 "expires_at=" ++ decimal expiresAt,
    utf8 "issued_at=" ++ decimal issuedAt, utf8 "issuer=" ++ issuer, utf8 "nonce=" ++ nonce,
    utf8 "provider=" ++ provider, utf8 "subject_hash=" ++ subjectHash,
    utf8 "token_hash=" ++ tokenHash, utf8 "version=1"]
  hexBytes (hmac key (parts.flatMap fun part => part ++ [0]))

def mint (accountID : String) (random : Bytes) (now ttl : ℚ) : Minted :=
  let issuer := utf8 "fheya-auth-v1"
  let provider := utf8 "invite"
  let nonce := hexBytes random
  let tokenHash := hashString sha256 (utf8 accountID ++ bar ++ provider)
  let subjectHash :=
    hashString sha256 (issuer ++ bar ++ provider ++ bar ++ utf8 accountID ++ bar ++ nonce)
  let issuedAt := seconds now
  let expiresAt := seconds (now + ttl)
  ⟨1, issuer, subjectHash, provider, tokenHash, nonce, issuedAt, expiresAt,
    signClaims hmac key issuer provider nonce subjectHash tokenHash issuedAt expiresAt⟩

end Minting

theorem length_pairsFromHex {byteOf : Char → Char → Option UInt8} : ∀ {l : List Char} {b : Bytes},
    pairsFromHex byteOf l = some b → l.length = 2 * b.length
  | [], _, read => by
    cases read
    rfl
  | [_], _, read => by cases read
  | c :: d :: rest, _, read => by
    rw [pairsFromHex] at read
    split at read
    · cases read
    · obtain ⟨tail, more, rfl⟩ := Option.map_eq_some_iff.mp read
      rw [length_cons, length_cons, length_cons, length_pairsFromHex more]
      omega

theorem length_le_utf8 (s : String) : s.length ≤ (utf8 s).length := by
  obtain ⟨l, rfl⟩ : ∃ l, s = String.ofList l := ⟨s.toList, by simp⟩
  rw [utf8_ofList, String.length_ofList, length_flatMap]
  induction l with
  | nil => simp
  | cons c l ih =>
    have pos := c.utf8Size_pos
    rw [map_cons, sum_cons, length_cons, String.length_utf8EncodeChar]
    omega

/-- The two sides read one key exactly if Swift does not misread a text of at least 64
characters. -/
theorem signingKey_eq_iff {raw : String} (nonempty : raw ≠ "") (production : Bool) :
    signingKey raw = signingKeyFromEnv raw production ↔
      ¬ (64 ≤ raw.length ∧ Misread Swift.Slip raw) := by
  have agree := swift_takes.eq_decodeString_iff raw
  rw [signingKey, signingKeyFromEnv, if_pos nonempty]
  by_cases misread : Misread Swift.Slip raw
  · have go : decodeString raw = none := by
      rw [← Option.not_isSome_iff_eq_none, decodeString_isSome_iff]
      rintro ⟨-, digits⟩
      obtain ⟨-, -, p, mem, slips⟩ := misread
      exact swift_takes.slip p slips (digits p mem)
    have some : (Swift.dialect.fromHex raw).isSome :=
      pairsFromHex_isSome_iff.mpr ⟨misread.1, fun p mem =>
        (swift_takes.isSome_iff p).mpr (misread.2.1 p mem)⟩
    obtain ⟨b, read⟩ := Option.isSome_iff_exists.mp some
    have length : raw.length = 2 * b.length := length_pairsFromHex read
    rw [go, read]
    dsimp only
    split_ifs with long
    · refine iff_of_false ?_ (not_not.mpr ⟨by omega, misread⟩)
      rintro rfl
      have text := length_le_utf8 raw
      omega
    · refine iff_of_true rfl ?_
      rintro ⟨wide, -⟩
      omega
  · have same : Swift.dialect.fromHex raw = decodeString raw := agree.mpr misread
    rw [same]
    exact iff_of_true rfl fun both => misread both.2

theorem signingKey_ne_nil {raw : String} (nonempty : raw ≠ "") : signingKey raw ≠ [] := by
  have text : utf8 raw ≠ [] := by
    intro none
    exact nonempty (String.toByteArray_inj.mp (ByteArray.ext (Array.toList_inj.mp none)))
  unfold signingKey
  split
  · next b _ =>
    split_ifs with long
    · rintro rfl
      exact absurd long (by decide)
    · exact text
  · exact text

/-- Every minted credential is accepted until it expires, whatever the MAC and the hash, exactly if
Swift does not misread a key text of at least 64 characters. A blob is the JSON text of the minted
object, as far as the issuer's decoder can tell. -/
theorem minted_credentials_verify (raw : String) (nonempty : raw ≠ "") :
    (∀ (hmac : Bytes → Bytes → Bytes) (sha256 : Bytes → Bytes)
      (decode : Bytes → Except String Envelope) (production : Bool) (accountID : String)
      (random : Bytes) (now ttl : ℚ) (blob : Bytes) (goTTL t : ℤ),
      let minted := (mint hmac sha256 (signingKey raw) accountID random now ttl).envelope
      decode blob = .ok minted → unix t < seconds (now + ttl) →
        verify hmac decode ⟨utf8 "fheya-auth-v1", signingKeyFromEnv raw production, goTTL⟩ t blob =
          .ok minted.claims ∧ minted.claims.accountID = []) ↔
      ¬ (64 ≤ raw.length ∧ Misread Swift.Slip raw) := by
  constructor
  · intro accepts
    rw [← signingKey_eq_iff nonempty true]
    -- a MAC that knows Swift's key from every other
    let hmac (key _ : Bytes) : Bytes := if key = signingKey raw then [] else [0]
    let minted := (mint hmac id (signingKey raw) "" [] 0 1).envelope
    have accepted := (accepts hmac id (fun _ => .ok minted) true "" [] 0 1 [] 0 0 rfl
      (by decide +kernel)).1
    obtain ⟨env, decoded, -, signature, -⟩ := verify_ok accepted
    cases decoded
    by_contra differ
    have own : minted.signature = hexBytes [] := congrArg hexBytes (if_pos rfl)
    have other : ∀ claims, sign hmac (signingKeyFromEnv raw true) claims = hexBytes [0] :=
      fun claims => congrArg hexBytes (if_neg (Ne.symm differ))
    rw [own, other] at signature
    exact absurd signature (by decide)
  · intro clean hmac sha256 decode production accountID random now ttl blob goTTL t
      minted codec fresh
    have key := (signingKey_eq_iff nonempty production).mpr clean
    refine ⟨verify_accepts ?_ codec ?_ fresh rfl rfl, rfl⟩
    · rw [← key]
      exact mt length_eq_zero_iff.mp (signingKey_ne_nil nonempty)
    · rw [← key]
      rfl

/-- A MAC that shows its key. -/
def echo (key _ : Bytes) : Bytes := key

def aliceInvite (raw : String) : Envelope :=
  (mint echo lengthHash (signingKey raw) "alice" [] 0 3600).envelope

theorem minted_credentials_verify_alice :
    verify echo (fun _ => .ok (aliceInvite "k"))
        ⟨utf8 "fheya-auth-v1", signingKeyFromEnv "k" true, 0⟩ 0 [] =
      .ok (aliceInvite "k").claims :=
  ((minted_credentials_verify "k" (by decide)).mpr fun both => absurd both.1 (by decide)) echo
    lengthHash (fun _ => .ok (aliceInvite "k")) true "alice" [] 0 3600 [] 0 0 rfl
    (by decide +kernel) |>.1

/-- Thirty-two times `+f` is a key of 32 bytes in Swift and a text of 64 in Go. -/
theorem signed_key_refused :
    let raw := String.ofList (replicate 32 ['+', 'f']).flatten
    raw ≠ "" ∧ unix 0 < (aliceInvite raw).claims.expiresAt ∧
      verify echo (fun _ => .ok (aliceInvite raw))
        ⟨utf8 "fheya-auth-v1", signingKeyFromEnv raw true, 0⟩ 0 [] = .error .signature := by
  decide +kernel

end InviteCredentials

import Ares.ByteStrings
import Ares.LineageNodes

/-! A credential is a record of claims with a MAC over the claims written as `key=value` parts, each
ended by a NUL byte. -/
namespace Credentials

open LineageNodes ByteStrings List

@[ext] structure Claims where
  version : ℤ
  issuer : Bytes
  accountID : Bytes
  subjectHash : Bytes
  provider : Bytes
  tokenHash : Bytes
  nonce : Bytes
  issuedAt : ℤ
  expiresAt : ℤ
  deriving DecidableEq

structure Envelope where
  claims : Claims
  signature : Bytes
  deriving DecidableEq

def credentialVersion : ℤ := 1

inductive CredentialErr where
  | missingSigningKey
  | random (text : String)
  | decode (text : String)
  | signature
  | expired
  | unsupportedVersion (version : ℤ)
  | unexpectedIssuer (got want : Bytes)
  deriving DecidableEq

def parts (c : Claims) : List Bytes :=
  [utf8 "account_id=" ++ c.accountID, utf8 "expires_at=" ++ decimal c.expiresAt,
    utf8 "issued_at=" ++ decimal c.issuedAt, utf8 "issuer=" ++ c.issuer,
    utf8 "nonce=" ++ c.nonce, utf8 "provider=" ++ c.provider,
    utf8 "subject_hash=" ++ c.subjectHash, utf8 "token_hash=" ++ c.tokenHash,
    utf8 "version=" ++ decimal c.version]

def canonical (c : Claims) : List Bytes := sortBytes (parts c)

def macInput (c : Claims) : Bytes := (canonical c).flatMap fun part => part ++ [0]

structure Issuer where
  issuer : Bytes
  signingKey : Bytes
  ttl : ℤ

def defaultTTL : ℤ := 30 * 24 * 3600 * 10 ^ 9

section

variable (hmac : Bytes → Bytes → Bytes) (sha256 : Bytes → Bytes)

def sign (key : Bytes) (c : Claims) : Bytes := hexBytes (hmac key (macInput c))

def hashString (value : Bytes) : Bytes := hexBytes (sha256 value)

def unix (t : ℤ) : ℤ := t / 10 ^ 9

def bar : Bytes := utf8 "|"

def claimsFor (s : Issuer) (accountID provider tokenHash nonce : Bytes) (now : ℤ) : Claims where
  version := credentialVersion
  issuer := s.issuer
  accountID := accountID
  subjectHash :=
    hashString sha256 (s.issuer ++ bar ++ provider ++ bar ++ accountID ++ bar ++ nonce)
  provider := provider
  tokenHash := tokenHash
  nonce := nonce
  issuedAt := unix now
  expiresAt := unix (now + if s.ttl ≤ 0 then defaultTTL else s.ttl)

def issueWithTokenHash (s : Issuer) (accountID provider tokenHash : Bytes)
    (random : Except String Bytes) (now : ℤ) : Except CredentialErr Envelope :=
  if s.signingKey.length = 0 then .error .missingSigningKey
  else match random with
  | .error e => .error (.random e)
  | .ok bytes =>
    let claims := claimsFor sha256 s accountID provider tokenHash (hexBytes bytes) now
    .ok ⟨claims, sign hmac s.signingKey claims⟩

def issue (s : Issuer) (accountID provider : Bytes) (random : Except String Bytes) (now : ℤ) :
    Except CredentialErr Envelope :=
  issueWithTokenHash hmac sha256 s accountID provider
    (hashString sha256 (accountID ++ bar ++ provider)) random now

inductive HTTPErr where
  | accountRequired
  | internal (e : CredentialErr)
  deriving DecidableEq

def handleIssue (s : Issuer) (accountID provider : Bytes) (random : Except String Bytes)
    (now : ℤ) : Except HTTPErr Envelope :=
  if accountID = [] then .error .accountRequired
  else
    let provider := if provider = [] then utf8 "anonymous" else provider
    match issue hmac sha256 s accountID provider random now with
    | .error e => .error (.internal e)
    | .ok env => .ok env

/-- `Verify`; `decode` reads a blob that is JSON or base64 of JSON. -/
def verify (decode : Bytes → Except String Envelope) (s : Issuer) (now : ℤ) (blob : Bytes) :
    Except CredentialErr Claims :=
  if s.signingKey.length = 0 then .error .missingSigningKey
  else match decode blob with
  | .error e => .error (.decode e)
  | .ok env =>
    let expected := sign hmac s.signingKey env.claims
    if expected ≠ env.signature then .error .signature
    else if env.claims.expiresAt ≤ unix now then .error .expired
    else if env.claims.version ≠ credentialVersion then
      .error (.unsupportedVersion env.claims.version)
    else if env.claims.issuer ≠ s.issuer then
      .error (.unexpectedIssuer env.claims.issuer s.issuer)
    else .ok env.claims

/-- One call of `Issue`, or of `IssueWithTokenHash` with its token hash. -/
structure IssueCall where
  accountID : Bytes
  provider : Bytes
  tokenHash : Option Bytes
  random : Except String Bytes
  now : ℤ

def IssueCall.perform (s : Issuer) (c : IssueCall) : Except CredentialErr Envelope :=
  match c.tokenHash with
  | none => issue hmac sha256 s c.accountID c.provider c.random c.now
  | some tokenHash =>
    issueWithTokenHash hmac sha256 s c.accountID c.provider tokenHash c.random c.now

def issued (s : Issuer) (calls : List IssueCall) : List Claims :=
  calls.filterMap fun c => (c.perform hmac sha256 s).toOption.map Envelope.claims

end

theorem parts_sorted (c : Claims) : (parts c).Pairwise fun a b => a ≤ b := by
  simp only [parts, pairwise_cons, forall_mem_cons]
  simp only [not_mem_nil, false_implies, implies_true, and_true, Pairwise.nil]
  refine ⟨⟨?_, ?_, ?_, ?_, ?_, ?_, ?_, ?_⟩, ⟨?_, ?_, ?_, ?_, ?_, ?_, ?_⟩, ⟨?_, ?_, ?_, ?_, ?_, ?_⟩,
    ⟨?_, ?_, ?_, ?_, ?_⟩, ⟨?_, ?_, ?_, ?_⟩, ⟨?_, ?_, ?_⟩, ⟨?_, ?_⟩, ?_⟩ <;>
  exact append_le_of_before (by decide) _ _

theorem canonical_eq (c : Claims) : canonical c = parts c :=
  (eq_sortBytes (Perm.refl _) (parts_sorted c)).symm

/-- None of the free-form values contains a NUL; the issuer is not asked. -/
structure Plain (c : Claims) : Prop where
  accountID : 0 ∉ c.accountID
  nonce : 0 ∉ c.nonce
  provider : 0 ∉ c.provider
  subjectHash : 0 ∉ c.subjectHash
  tokenHash : 0 ∉ c.tokenHash

theorem count_macInput (c : Claims) :
    (macInput c).count 0 = 9 + c.issuer.count 0 + (c.accountID.count 0 + c.nonce.count 0 +
      c.provider.count 0 + c.subjectHash.count 0 + c.tokenHash.count 0) := by
  have keys : ∀ key ∈ ["account_id=", "expires_at=", "issued_at=", "issuer=", "nonce=", "provider=",
      "subject_hash=", "token_hash=", "version="], (utf8 key).count 0 = 0 := by decide
  simp only [forall_mem_cons] at keys
  obtain ⟨h1, h2, h3, h4, h5, h6, h7, h8, h9, -⟩ := keys
  have number := fun n => count_eq_zero.mpr (zero_notMem_decimal n)
  simp only [macInput, canonical_eq, parts, flatMap_cons, flatMap_nil, count_append, h9, number,
    count_singleton_self, count_nil]
  omega

theorem Plain.of_macInput_eq {c c' : Claims} (plain : Plain c) (issuer : c'.issuer = c.issuer)
    (h : macInput c' = macInput c) : Plain c' := by
  have counts := congrArg (List.count 0) h
  rw [count_macInput, count_macInput, issuer] at counts
  have zero := fun (l : Bytes) (hl : 0 ∉ l) => count_eq_zero.mpr hl
  rw [zero _ plain.accountID, zero _ plain.nonce, zero _ plain.provider, zero _ plain.subjectHash,
    zero _ plain.tokenHash] at counts
  constructor <;> apply count_eq_zero.mp <;> omega

theorem macInput_inj {c c' : Claims} (plain : Plain c) (issuer : c'.issuer = c.issuer)
    (h : macInput c' = macInput c) : c' = c := by
  have plain' := plain.of_macInput_eq issuer h
  have number := zero_notMem_decimal
  simp only [macInput, canonical_eq, parts, flatMap_cons, append_assoc,
    cons_append, nil_append, issuer] at h
  obtain ⟨account, h⟩ := append_nul_inj plain'.accountID plain.accountID
    (append_cancel_left h)
  obtain ⟨expires, h⟩ := append_nul_inj (number _) (number _) (append_cancel_left h)
  obtain ⟨issued, h⟩ := append_nul_inj (number _) (number _) (append_cancel_left h)
  -- the issuer is the same in both, whatever it contains
  obtain ⟨-, h⟩ := List.cons.inj (append_cancel_left (append_cancel_left h))
  obtain ⟨nonce, h⟩ := append_nul_inj plain'.nonce plain.nonce (append_cancel_left h)
  obtain ⟨provider, h⟩ := append_nul_inj plain'.provider plain.provider
    (append_cancel_left h)
  obtain ⟨subject, h⟩ := append_nul_inj plain'.subjectHash plain.subjectHash
    (append_cancel_left h)
  obtain ⟨token, h⟩ := append_nul_inj plain'.tokenHash plain.tokenHash
    (append_cancel_left h)
  obtain ⟨version, -⟩ := append_nul_inj (number _) (number _) (append_cancel_left h)
  exact Claims.ext (decimal_injective version) issuer account subject provider token nonce
    (decimal_injective issued) (decimal_injective expires)

section

variable {hmac : Bytes → Bytes → Bytes} {sha256 : Bytes → Bytes} {s : Issuer}
  {decode : Bytes → Except String Envelope} {accountID provider tokenHash : Bytes} {env : Envelope}

structure IssueCall.NoNul (c : IssueCall) : Prop where
  accountID : 0 ∉ c.accountID
  provider : 0 ∉ c.provider
  tokenHash : ∀ t ∈ c.tokenHash, 0 ∉ t

theorem issueWithTokenHash_ok {random : Except String Bytes} {now : ℤ}
    (h : issueWithTokenHash hmac sha256 s accountID provider tokenHash random now = .ok env) :
    ∃ bytes, env.claims = claimsFor sha256 s accountID provider tokenHash (hexBytes bytes) now := by
  unfold issueWithTokenHash at h
  split_ifs at h
  split at h
  · cases h
  · next bytes =>
    cases h
    exact ⟨bytes, rfl⟩

theorem claimsFor_plain (account : 0 ∉ accountID)
    (prov : 0 ∉ provider) (token : 0 ∉ tokenHash) (bytes : Bytes) (now : ℤ) :
    Plain (claimsFor sha256 s accountID provider tokenHash (hexBytes bytes) now) :=
  ⟨account, zero_notMem_hexBytes _, prov, zero_notMem_hexBytes _, token⟩

theorem perform_plain {c : IssueCall} (clean : c.NoNul)
    (h : c.perform hmac sha256 s = .ok env) : Plain env.claims ∧ env.claims.issuer = s.issuer := by
  unfold IssueCall.perform at h
  split at h
  · obtain ⟨bytes, claims⟩ := issueWithTokenHash_ok h
    rw [claims]
    exact ⟨claimsFor_plain clean.accountID clean.provider (zero_notMem_hexBytes _) _ _, rfl⟩
  · next tokenHash supplied =>
    obtain ⟨bytes, claims⟩ := issueWithTokenHash_ok h
    rw [claims]
    exact ⟨claimsFor_plain clean.accountID clean.provider (clean.tokenHash _ supplied) _ _, rfl⟩

theorem verify_ok {now : ℤ} {blob : Bytes}
    {claims : Claims} (h : verify hmac decode s now blob = .ok claims) :
    ∃ env, decode blob = .ok env ∧ env.claims = claims ∧
      env.signature = sign hmac s.signingKey claims ∧ claims.issuer = s.issuer := by
  unfold verify at h
  split_ifs at h
  split at h
  · cases h
  · next env decoded =>
    dsimp only at h
    split_ifs at h with signature _ _ issuer
    cases h
    exact ⟨env, decoded, rfl, (not_not.mp signature).symm, not_not.mp issuer⟩

theorem verify_accepts {now : ℤ}
    {blob : Bytes} (key : s.signingKey.length ≠ 0) (decoded : decode blob = .ok env)
    (signature : sign hmac s.signingKey env.claims = env.signature)
    (fresh : unix now < env.claims.expiresAt) (version : env.claims.version = credentialVersion)
    (issuer : env.claims.issuer = s.issuer) : verify hmac decode s now blob = .ok env.claims := by
  rw [verify, if_neg key, decoded]
  dsimp only
  rw [if_neg (not_not.mpr signature), if_neg (not_le.mpr fresh), if_neg (not_not.mpr version),
    if_neg (not_not.mpr issuer)]

/-- The server accepts what it has issued until the expiry, and then says that it has expired. -/
def IdealFor (hmac : Bytes → Bytes → Bytes) (sha256 : Bytes → Bytes)
    (decode : Bytes → Except String Envelope) (s : Issuer) (calls : List IssueCall)
    (blob : Bytes) : Prop :=
  ∀ env, decode blob = .ok env → env.signature = sign hmac s.signingKey env.claims →
    macInput env.claims ∈ (issued hmac sha256 s calls).map macInput

/-- For every history of calls whose values contain no NUL and every blob: if `Verify` accepts it,
its claims are those of an issued credential. -/
theorem accepted_issued (decode : Bytes → Except String Envelope) {s : Issuer}
    {calls : List IssueCall} (clean : ∀ c ∈ calls, c.NoNul) {blob : Bytes}
    (ideal : IdealFor hmac sha256 decode s calls blob) {now : ℤ} {claims : Claims}
    (accepted : verify hmac decode s now blob = .ok claims) :
    claims ∈ issued hmac sha256 s calls := by
  obtain ⟨env, decoded, rfl, signature, issuer⟩ := verify_ok accepted
  obtain ⟨c, hc, same⟩ := mem_map.mp (ideal env decoded signature)
  obtain ⟨call, hcall, performed⟩ := mem_filterMap.mp hc
  cases result : call.perform hmac sha256 s with
  | error e =>
    rw [result] at performed
    cases performed
  | ok genuine =>
    rw [result] at performed
    cases performed
    obtain ⟨plain, own⟩ := perform_plain (clean call hcall) result
    rwa [macInput_inj plain (issuer.trans own.symm) same.symm]

end

def joinMac (key msg : Bytes) : Bytes := key ++ msg

def lengthHash (value : Bytes) : Bytes := [.ofNat value.length]

def hourly : Issuer := ⟨utf8 "S", [1], 3600 * 10 ^ 9⟩

def aliceCall : IssueCall := ⟨utf8 "alice", utf8 "invite", none, .ok (List.replicate 16 0), 0⟩

def aliceCredential : Envelope := (aliceCall.perform joinMac lengthHash hourly).toOption.get rfl

theorem accepted_issued_alice :
    aliceCall.NoNul ∧
      verify joinMac (fun _ => .ok aliceCredential) hourly 0 [] = .ok aliceCredential.claims ∧
      aliceCredential.claims ∈ issued joinMac lengthHash hourly [aliceCall] := by
  have clean : aliceCall.NoNul := by
    constructor
    · decide
    · decide
    · simp [aliceCall]
  have accepted :
      verify joinMac (fun _ => .ok aliceCredential) hourly 0 [] = .ok aliceCredential.claims :=
    verify_accepts (by decide) rfl rfl (by decide) rfl rfl
  have ideal :
      IdealFor joinMac lengthHash (fun _ => .ok aliceCredential) hourly [aliceCall] [] := by
    intro env decoded _
    cases decoded
    exact mem_map_of_mem (mem_cons_self ..)
  exact ⟨clean, accepted, accepted_issued _ (by simpa using clean) ideal accepted⟩

def cutAccount : Bytes :=
  utf8 "a" ++ 0 :: utf8 "expires_at=9999999999" ++ 0 :: utf8 "issued_at=1" ++ 0 ::
    utf8 "issuer=S" ++ 0 :: utf8 "nonce=x"

def cutCall : IssueCall := ⟨cutAccount, utf8 "anonymous", none, .ok (List.replicate 16 0), 0⟩

def cutCredential : Envelope := (cutCall.perform joinMac lengthHash hourly).toOption.get rfl

def forgedClaims : Claims :=
  { cutCredential.claims with
    accountID := utf8 "a"
    expiresAt := 9999999999
    issuedAt := 1
    nonce := utf8 "x" ++ 0 :: utf8 "expires_at=3600" ++ 0 :: utf8 "issued_at=0" ++ 0 ::
      utf8 "issuer=S" ++ 0 :: utf8 "nonce=" ++ hexBytes (List.replicate 16 0) }

def presented (blob : Bytes) : Except String Envelope :=
  if blob = [] then .ok cutCredential else .ok ⟨forgedClaims, cutCredential.signature⟩

theorem macInput_forged : macInput forgedClaims = macInput cutCredential.claims := by
  simp only [macInput, canonical_eq]
  decide +kernel

/-- A credential that has expired is accepted with another account and a later expiry. -/
theorem nul_account_forges :
    handleIssue joinMac lengthHash hourly cutAccount [] (.ok (List.replicate 16 0)) 0 =
        .ok cutCredential ∧ issued joinMac lengthHash hourly [cutCall] = [cutCredential.claims] ∧
      IdealFor joinMac lengthHash presented hourly [cutCall] [0] ∧
      verify joinMac presented hourly (5000 * 10 ^ 9) [] = .error .expired ∧
      verify joinMac presented hourly (5000 * 10 ^ 9) [0] = .ok forgedClaims ∧
      forgedClaims ≠ cutCredential.claims := by
  have signature : sign joinMac hourly.signingKey forgedClaims = cutCredential.signature := by
    rw [sign, macInput_forged]
    rfl
  refine ⟨rfl, rfl, ?_, ?_, ?_, by decide⟩
  · intro env decoded _
    cases decoded
    rw [macInput_forged]
    exact mem_map_of_mem (mem_cons_self ..)
  · have decoded : presented [] = .ok cutCredential := rfl
    have late : cutCredential.claims.expiresAt ≤ unix (5000 * 10 ^ 9) := by decide
    have genuine : sign joinMac hourly.signingKey cutCredential.claims =
        cutCredential.signature := rfl
    rw [verify, if_neg (by decide), decoded]
    dsimp only
    rw [if_neg (not_not.mpr genuine), if_pos late]
  · have decoded : presented [0] = .ok ⟨forgedClaims, cutCredential.signature⟩ := rfl
    have early : unix (5000 * 10 ^ 9) < forgedClaims.expiresAt := by decide
    exact verify_accepts (by decide) decoded signature early rfl rfl

end Credentials

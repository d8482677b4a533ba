import Ares.ByteStrings
import Ares.FallibleLists
import Ares.SwiftScanner

/-! `Assemble` checks the two staging manifests of a bundle directory against the staged files, the
tracked pins and the git checkout, and returns one manifest. -/

namespace ReleaseBundle

open FallibleLists LineageNodes SwiftScanner List

section

variable {α : Type} [DecidableEq α] (slash dot : α)

def cleanStep (rooted : Bool) (out : List (List α)) (part : List α) : List (List α) :=
  if part = [] ∨ part = [dot] then out
  else if part = [dot, dot] then
    match out with
    | [] => if rooted then [] else [part]
    | last :: rest => if last = [dot, dot] then part :: out else rest
  else part :: out

def clean (path : List α) : List α :=
  let rooted := path.head? = some slash
  let parts := ((path.splitOn slash).foldl (cleanStep dot rooted) []).reverse
  let body := List.intercalate [slash] parts
  if rooted then slash :: body else if body = [] then [dot] else body

end

def join (elems : List String) : String :=
  match elems.dropWhile (· = "") with
  | [] => ""
  | elems => String.ofList (clean '/' '.' ("/".intercalate elems).toList)

def base (path : String) : String :=
  if path = "" then "."
  else
    match path.toList.reverse.dropWhile (· = '/') with
    | [] => "/"
    | chars => String.ofList (chars.takeWhile (· ≠ '/')).reverse

structure ArtifactManifest where
  artifactKind : String
  artifactPath : String
  artifactSHA256 : String
  openFHEVersion : String
  openFHESourceCommit : String
  aresCoreSourceRevision : String
  targetArchitectures : List String
  sbomPath : String
  sbomSHA256 : String
  provenancePath : String
  provenanceSHA256 : String
  appleMACOSDeploymentTarget : String
  deriving DecidableEq

structure ArtifactRef where
  artifactKind : String
  artifactFile : String
  artifactSHA256 : String
  targetArchitectures : List String
  sbomFile : String
  sbomSHA256 : String
  provenanceFile : String
  provenanceSHA256 : String
  appleMACOSDeploymentTarget : String
  deriving DecidableEq

structure ReleaseCacheManifest where
  schemaVersion : ℤ
  aresCoreSourceRevision : String
  openFHEVersion : String
  openFHESourceCommit : String
  apple : ArtifactRef
  android : ArtifactRef
  swiftReleaseManifestSHA256 : String
  generatedAt : String
  deriving DecidableEq

structure PinFile where
  openFHEVersion : String
  openFHESourceCommit : String
  androidNDKMinMajorVersion : String

def artifactKindAppleXCFramework : String := "apple_xcframework"

def artifactKindAndroidAAR : String := "android_aar"

def requiredApplePlatforms : List String := ["ios-arm64", "ios-arm64-simulator", "macos-arm64"]

def requiredAndroidABIs : List String := ["arm64-v8a", "x86_64"]

def requiredAndroidLibraries : List String :=
  ["libares_fhe_jni.so", "libOPENFHEcore.so", "libOPENFHEpke.so", "libOPENFHEbinfhe.so"]

def swiftReleaseManifest : String := "clients/swift/Package.release.swift"

def canonicalAppleMacOSLibraryMember : String :=
  "AresPrivacyCore.xcframework/macos-arm64/libAresPrivacyCore.a"

inductive FileMode where
  | symlink
  | regular
  | other (mode : String)

structure DirEntry where
  name : String
  isDir : Bool

structure ZipFile where
  name : Bytes
  nonUTF8 : Bool
  isSymlink : Bool

/-- What the file system and git answer. -/
structure World where
  lstat : String → Except String FileMode
  readFile : String → Except String Bytes
  readDir : String → Except String (List DirEntry)
  git : String → List String → Except String String

structure Tools where
  sha256 : Bytes → Bytes
  unmarshalManifest : Bytes → Except String ArtifactManifest
  unmarshalPin : Bytes → Except String PinFile
  unmarshalDeploymentTargetPin : Bytes → Except String String
  unzip : Bytes → Except String (List ZipFile)

def wrap {α : Type} (text : String) : Except String α → Except String α
  | .ok a => .ok a
  | .error e => .error (text ++ ": " ++ e)

def refuse (bad : Prop) [Decidable bad] (text : String) : Except String Unit :=
  if bad then .error text else .ok ()

def showList (l : List String) : String := "[" ++ " ".intercalate l ++ "]"

def encodeToString (b : Bytes) : String := String.ofList (ByteStrings.hexDigits b)

/-- The verb `%q` of bytes; those of a text that is not UTF-8 are escaped one by one. -/
def quoteBytes (b : Bytes) : String :=
  match String.fromUTF8? ⟨b.toArray⟩ with
  | some s => goQuote s
  | none => "\"" ++ String.join (b.map fun x =>
      if x < 0x80 then quoteChar (Char.ofNat x.toNat) else "\\x" ++ encodeToString [x]) ++ "\""

def validString (b : Bytes) : Bool :=
  b.all (· < 0x80) || (String.fromUTF8? ⟨b.toArray⟩).isSome

/-- The verb `%s` of bytes, which are shown as `%q` escapes them if they are not UTF-8. -/
def showBytes (b : Bytes) : String := (String.fromUTF8? ⟨b.toArray⟩).getD (quoteBytes b)

def gateText : GateError → String
  | .cannotBeInspected e => swiftReleaseManifest ++ " cannot be inspected safely: " ++ e.text
  | .forbidden part => swiftReleaseManifest ++ " contains a forbidden local-path/environment " ++
      "dependency substitution pattern: " ++ goQuote part
  | .calls (.scan e) => e.text
  | .calls (.unterminatedCall token e) =>
    swiftReleaseManifest ++ " has an unterminated " ++ token ++ " call: " ++ e.text
  | .localPath call => swiftReleaseManifest ++
      " declares a local path package dependency: .package(" ++ showBytes call ++ ")"
  | .fileURL call => swiftReleaseManifest ++
      " declares a file URL package dependency: .package(" ++ showBytes call ++ ")"
  | .missing => swiftReleaseManifest ++ " is missing the active " ++
      goQuote requiredBridgeTargetName ++ " staged bridge binary target"
  | .declared n => swiftReleaseManifest ++ " declares " ++ toString n ++ " active " ++
      goQuote requiredBridgeTargetName ++ " binary targets, expected exactly 1"
  | .wrongPath got => swiftReleaseManifest ++ " must bind " ++ goQuote requiredBridgeTargetName ++
      " to literal path " ++ goQuote requiredBridgeTargetPath ++ ", got " ++ quoteBytes got

section

variable (t : Tools) (w : World)

def readRegularFile (path : String) : Except String Bytes :=
  match w.lstat path with
  | .error e => .error e
  | .ok .symlink => .error "symlink is not permitted"
  | .ok (.other mode) => .error ("expected a regular file, got mode " ++ mode)
  | .ok .regular => w.readFile path

def sha256OfPath (path : String) : Except String String := do
  let raw ← readRegularFile w path
  return encodeToString (t.sha256 raw)

def openReader (path : String) : Except String (List ZipFile) := do
  let raw ← w.readFile path
  t.unzip raw

def isStagingManifest (e : DirEntry) : Bool :=
  !e.isDir && ".staging-manifest.json".toList.isSuffixOf e.name.toList

def readStagingManifest (bundleDir : String) (e : DirEntry) : Except String ArtifactManifest := do
  let path := join [bundleDir, e.name]
  let raw ← wrap ("reading staging manifest " ++ path) (readRegularFile w path)
  wrap ("parsing staging manifest " ++ path) (t.unmarshalManifest raw)

def loadStagingManifest (bundleDir kind : String) : Except String ArtifactManifest := do
  let entries ← wrap ("reading bundle directory " ++ bundleDir) (w.readDir bundleDir)
  let manifests ← (entries.filter isStagingManifest).mapM (readStagingManifest t w bundleDir)
  match manifests.filter (·.artifactKind = kind) with
  | [] =>
    .error ("bundle directory " ++ bundleDir ++ " has no staging manifest with artifact_kind " ++
      goQuote kind)
  | [m] => .ok m
  | ms =>
    .error ("bundle directory " ++ bundleDir ++ " has " ++ toString ms.length ++
      " staging manifests with artifact_kind " ++ goQuote kind ++ ", expected exactly 1")

def verifyHash (bundleDir label filename want : String) : Except String Unit := do
  let path := join [bundleDir, filename]
  let got ← wrap ("hashing " ++ label ++ " file " ++ path) (sha256OfPath t w path)
  refuse (got ≠ want) (label ++ " file " ++ path ++ " sha256 mismatch: manifest claims " ++ want ++
    ", actual " ++ got)

def verifyManifestHashes (bundleDir : String) (m : ArtifactManifest) : Except String Unit := do
  verifyHash t w bundleDir "artifact" (base m.artifactPath) m.artifactSHA256
  verifyHash t w bundleDir "sbom" (base m.sbomPath) m.sbomSHA256
  verifyHash t w bundleDir "provenance" (base m.provenancePath) m.provenanceSHA256

def requireAllArchitectures (label : String) (required actual : List String) : Except String Unit :=
  let missing := required.filter (· ∉ actual)
  refuse (missing ≠ []) (label ++ ": missing required architecture(s)/ABI(s) " ++
    showList missing ++ " (staged: " ++ showList actual ++ ")")

def verifyAgainstOpenFHEPin (repoRoot : String) (m : ArtifactManifest) : Except String Unit := do
  let pinPath := join [repoRoot, "clients", "native", "openfhe.pin.json"]
  let raw ← wrap ("reading tracked OpenFHE pin " ++ pinPath) (readRegularFile w pinPath)
  let pin ← wrap ("parsing tracked OpenFHE pin " ++ pinPath) (t.unmarshalPin raw)
  refuse (pin.openFHEVersion = "" ∨ pin.openFHESourceCommit = "")
    ("tracked OpenFHE pin " ++ pinPath ++ " is missing openfhe_version or openfhe_source_commit")
  refuse (m.openFHEVersion ≠ pin.openFHEVersion ∨ m.openFHESourceCommit ≠ pin.openFHESourceCommit)
    ("artifact OpenFHE pin (" ++ m.openFHEVersion ++ " @ " ++ m.openFHESourceCommit ++
      ") does not match tracked pin " ++ pinPath ++ " (" ++ pin.openFHEVersion ++ " @ " ++
      pin.openFHESourceCommit ++ "); artifact was staged against a different pin than the one " ++
      "currently checked in")

def verifyAndroidNDKPinPresent (repoRoot : String) : Except String Unit := do
  let pinPath := join [repoRoot, "clients", "native", "android-ndk.pin.json"]
  let raw ← wrap ("reading tracked Android NDK pin " ++ pinPath) (readRegularFile w pinPath)
  let pin ← wrap ("parsing tracked Android NDK pin " ++ pinPath) (t.unmarshalPin raw)
  refuse (pin.androidNDKMinMajorVersion = "")
    ("tracked Android NDK pin " ++ pinPath ++ " is missing android_ndk_min_major_version")

def isSpace (c : Char) : Bool :=
  c.toNat ∈ [0x20, 0x85, 0xA0, 0x1680, 0x2028, 0x2029, 0x202F, 0x205F, 0x3000] ||
    (0x09 ≤ c.toNat && c.toNat ≤ 0x0D) || (0x2000 ≤ c.toNat && c.toNat ≤ 0x200A)

def trimSpace (s : String) : String :=
  String.ofList ((s.toList.dropWhile isSpace).reverse.dropWhile isSpace).reverse

def verifyCleanSourceRevision (repoRoot wantRevision : String) : Except String Unit := do
  let head ← wrap (repoRoot ++ " is not a git checkout with a HEAD commit")
    (w.git repoRoot ["rev-parse", "--verify", "HEAD"])
  refuse (trimSpace head ≠ wantRevision)
    ("repo root " ++ repoRoot ++ " is at revision " ++ trimSpace head ++
      ", but staged artifacts record ares_core_source_revision " ++ wantRevision)
  let status ← wrap ("checking git status of " ++ repoRoot)
    (w.git repoRoot ["status", "--porcelain"])
  refuse (trimSpace status ≠ "") ("repo root " ++ repoRoot ++
    " has uncommitted changes; a release bundle cannot be assembled from a dirty checkout")

def isVersionNumber (digits : List Char) : Bool :=
  digits = ['0'] || (digits ≠ [] && digits.head? ≠ some '0' && digits.all Char.isDigit)

def isCanonicalVersion (value : String) : Bool :=
  match value.toList.splitOn '.' with
  | [major, minor] => isVersionNumber major && isVersionNumber minor
  | _ => false

def validateAppleVersionFormat (value : String) : Except String Unit := do
  refuse (value = "") "value is empty (want MAJOR.MINOR)"
  refuse (isCanonicalVersion value = false)
    ("value " ++ goQuote value ++ " is not a canonical MAJOR.MINOR version")

def readDeclaredAppleDeploymentTarget (repoRoot : String) : Except String String := do
  let path := join [repoRoot, "clients", "native", "apple-deployment-target.pin.json"]
  let raw ← wrap ("reading tracked Apple deployment-target pin " ++ path) (readRegularFile w path)
  let target ← wrap ("parsing tracked Apple deployment-target pin " ++ path)
    (t.unmarshalDeploymentTargetPin raw)
  wrap ("tracked Apple deployment-target pin " ++ path ++
    " has an invalid macos_minimum_deployment_target") (validateAppleVersionFormat target)
  return target

def checkInspected (artifactPath declared value : String) : Except String Unit := do
  wrap ("apple artifact " ++ artifactPath ++ ": inspected Mach-O minos value is malformed")
    (validateAppleVersionFormat value)
  refuse (value ≠ declared) ("apple artifact " ++ artifactPath ++
    ": inspected Mach-O minimum macOS " ++ value ++
    " does not exactly match the declared supported target " ++ declared)

def verifyAppleDeploymentTarget (repoRoot : String) (apple : ArtifactManifest)
    (artifactPath : String) (inspectDeploymentTarget : String → Except String (List String)) :
    Except String Unit := do
  wrap "apple artifact staging manifest has an invalid apple_macos_deployment_target"
    (validateAppleVersionFormat apple.appleMACOSDeploymentTarget)
  let declared ← readDeclaredAppleDeploymentTarget t w repoRoot
  refuse (apple.appleMACOSDeploymentTarget ≠ declared)
    ("apple artifact's recorded macOS deployment target " ++ apple.appleMACOSDeploymentTarget ++
      " does not exactly match the declared supported target " ++ declared)
  let inspectedMinOS ←
    wrap ("inspecting real Mach-O deployment target metadata in " ++ artifactPath)
      (inspectDeploymentTarget artifactPath)
  inspectedMinOS.forM (checkInspected artifactPath declared)

def verifySwiftReleaseManifest (repoRoot : String) : Except String String := do
  let path := join [repoRoot, "clients", "swift", "Package.release.swift"]
  let raw ← wrap ("reading " ++ path) (readRegularFile w path)
  (checkSwiftReleaseManifest raw).mapError gateText
  return encodeToString (t.sha256 raw)

def isPortableAppleZIPNameByte (value : UInt8) : Bool :=
  (97 ≤ value && value ≤ 122) || (65 ≤ value && value ≤ 90) || (48 ≤ value && value ≤ 57) ||
    value = 47 || value = 46 || value = 95 || value = 45

def hasWindowsDrivePrefix : Bytes → Bool
  | drive :: colon :: slash :: _ =>
    ((65 ≤ drive && drive ≤ 90) || (97 ≤ drive && drive ≤ 122)) && colon = 58 && slash = 47
  | _ => false

def trimSlash (name : Bytes) : Bytes := if name.getLast? = some 47 then name.dropLast else name

def validateZIPMemberName (name : Bytes) : Except String Unit := do
  refuse (name = [] ∨ validString name = false)
    ("ZIP member name " ++ quoteBytes name ++ " is empty or invalid UTF-8")
  match name.find? fun b => !isPortableAppleZIPNameByte b with
  | some b =>
    .error ("ZIP member " ++ quoteBytes name ++ " contains byte 0x" ++ encodeToString [b] ++
      " outside the portable ASCII name set")
  | none => .ok ()
  refuse (92 ∈ name)
    ("ZIP member " ++ quoteBytes name ++ " uses a non-canonical backslash separator")
  refuse (name.head? = some 47 ∨ hasWindowsDrivePrefix name)
    ("ZIP member " ++ quoteBytes name ++ " uses an absolute path")
  refuse (trimSlash name = [] ∨ clean 47 46 (trimSlash name) ≠ trimSlash name)
    ("ZIP member " ++ quoteBytes name ++ " is not a canonical relative path")
  refuse ([46] ∈ (trimSlash name).splitOn 47 ∨ [46, 46] ∈ (trimSlash name).splitOn 47)
    ("ZIP member " ++ quoteBytes name ++ " contains an unsafe path component")

def normalizedZIPMemberName (name : Bytes) : Bytes :=
  let slashes := name.map fun b => if b = 92 then 47 else b
  clean 47 46 (trimSlash (slashes.dropWhile (· = 47)))

def lowerByte (b : UInt8) : UInt8 := if 65 ≤ b ∧ b ≤ 90 then b + 32 else b

def validateZIPMembersFrom (seen : List (Bytes × Bytes)) : List ZipFile → Except String Unit
  | [] => .ok ()
  | file :: files => do
    refuse file.nonUTF8
      ("ZIP member " ++ quoteBytes file.name ++ " has the ambiguous NonUTF8 flag set")
    validateZIPMemberName file.name
    refuse file.isSymlink ("ZIP member " ++ quoteBytes file.name ++ " is a symbolic link")
    let collisionKey := (normalizedZIPMemberName file.name).map lowerByte
    match seen.lookup collisionKey with
    | some previous =>
      .error ("duplicate or case-insensitive ZIP member " ++ quoteBytes file.name ++
        " collides with " ++ quoteBytes previous)
    | none => validateZIPMembersFrom ((collisionKey, file.name) :: seen) files

def validateZIPMemberNames (files : List ZipFile) : Except String Unit :=
  validateZIPMembersFrom [] files

def appleMembers (slice : String) : List Bytes :=
  let root := utf8 "AresPrivacyCore.xcframework/" ++ utf8 slice ++ utf8 "/"
  [root ++ utf8 "libAresPrivacyCore.a", root ++ utf8 "Headers/openfhe_wrapper.h",
    root ++ utf8 "Headers/module.modulemap"]

def checkAppleSlice (path : String) (present : List Bytes) (slice : String) :
    Except String Unit := do
  let root := utf8 "AresPrivacyCore.xcframework/" ++ utf8 slice ++ utf8 "/"
  let hasLib := decide (root ++ utf8 "libAresPrivacyCore.a" ∈ present)
  let hasHeader := decide (root ++ utf8 "Headers/openfhe_wrapper.h" ∈ present)
  let hasModulemap := decide (root ++ utf8 "Headers/module.modulemap" ∈ present)
  refuse (slice = "macos-arm64" ∧ hasLib = false)
    ("apple artifact " ++ path ++ " is missing canonical macOS library member " ++
      canonicalAppleMacOSLibraryMember)
  refuse (hasLib = false ∨ hasHeader = false ∨ hasModulemap = false)
    ("apple artifact " ++ path ++ " is missing required bridge module contents for slice " ++
      slice ++ " (lib=" ++ toString hasLib ++ " header=" ++ toString hasHeader ++ " modulemap=" ++
      toString hasModulemap ++ ")")

def checkAppleXCFrameworkContents (path : String) (requiredPlatforms : List String) :
    Except String Unit := do
  let files ← wrap ("opening apple artifact " ++ path ++ " as zip") (openReader t w path)
  wrap ("apple artifact " ++ path) (validateZIPMemberNames files)
  requiredPlatforms.forM (checkAppleSlice path (files.map ZipFile.name))

def androidMember (abi lib : String) : Bytes := utf8 "jni/" ++ utf8 abi ++ utf8 "/" ++ utf8 lib

def androidMembers (abi : String) : List Bytes := requiredAndroidLibraries.map (androidMember abi)

def checkAndroidABI (path : String) (present : List Bytes) (abi : String) : Except String Unit :=
  let missing := requiredAndroidLibraries.filter (androidMember abi · ∉ present)
  refuse (missing ≠ []) ("android artifact " ++ path ++
    " is missing required libraries for ABI " ++ abi ++ ": " ++ showList missing)

def checkAndroidAARContents (path : String) (requiredABIs : List String) : Except String Unit := do
  let files ← wrap ("opening android artifact " ++ path ++ " as zip") (openReader t w path)
  requiredABIs.forM (checkAndroidABI path (files.map ZipFile.name))

def toArtifactRef (m : ArtifactManifest) : ArtifactRef where
  artifactKind := m.artifactKind
  artifactFile := base m.artifactPath
  artifactSHA256 := m.artifactSHA256
  targetArchitectures := m.targetArchitectures
  sbomFile := base m.sbomPath
  sbomSHA256 := m.sbomSHA256
  provenanceFile := base m.provenancePath
  provenanceSHA256 := m.provenanceSHA256
  appleMACOSDeploymentTarget := m.appleMACOSDeploymentTarget

def requireEqual (field apple android : String) : Except String Unit :=
  refuse (apple ≠ android) (field ++ " mismatch between platform artifacts: apple=" ++ apple ++
    " android=" ++ android)

def assemble (bundleDir repoRoot : String)
    (inspectDeploymentTarget : String → Except String (List String)) (now : String) :
    Except String ReleaseCacheManifest := do
  let apple ← loadStagingManifest t w bundleDir artifactKindAppleXCFramework
  let android ← loadStagingManifest t w bundleDir artifactKindAndroidAAR
  verifyManifestHashes t w bundleDir apple
  verifyManifestHashes t w bundleDir android
  requireEqual "ares_core_source_revision" apple.aresCoreSourceRevision
    android.aresCoreSourceRevision
  requireEqual "openfhe_version" apple.openFHEVersion android.openFHEVersion
  requireEqual "openfhe_source_commit" apple.openFHESourceCommit android.openFHESourceCommit
  verifyAgainstOpenFHEPin t w repoRoot apple
  verifyAndroidNDKPinPresent t w repoRoot
  verifyCleanSourceRevision w repoRoot apple.aresCoreSourceRevision
  requireAllArchitectures "apple xcframework" requiredApplePlatforms apple.targetArchitectures
  requireAllArchitectures "android aar" requiredAndroidABIs android.targetArchitectures
  let appleArtifactPath := join [bundleDir, base apple.artifactPath]
  checkAppleXCFrameworkContents t w appleArtifactPath requiredApplePlatforms
  verifyAppleDeploymentTarget t w repoRoot apple appleArtifactPath inspectDeploymentTarget
  let androidArtifactPath := join [bundleDir, base android.artifactPath]
  checkAndroidAARContents t w androidArtifactPath requiredAndroidABIs
  let swiftManifestSHA256 ← verifySwiftReleaseManifest t w repoRoot
  return {
    schemaVersion := 1
    aresCoreSourceRevision := apple.aresCoreSourceRevision
    openFHEVersion := apple.openFHEVersion
    openFHESourceCommit := apple.openFHESourceCommit
    apple := toArtifactRef apple
    android := toArtifactRef android
    swiftReleaseManifestSHA256 := swiftManifestSHA256
    generatedAt := now }

variable {t w}

theorem wrap_eq_ok {α : Type} {text : String} {x : Except String α} {a : α} :
    wrap text x = .ok a ↔ x = .ok a := by
  cases x with
  | error e | ok b => simp [wrap]

variable {u : Unit}

theorem refuse_eq_ok {bad : Prop} [Decidable bad] {text : String} :
    refuse bad text = .ok u ↔ ¬ bad := by
  by_cases h : bad <;> simp [refuse]

def Hashed (t : Tools) (w : World) (path sha : String) : Prop :=
  ∃ raw, readRegularFile w path = .ok raw ∧ sha = encodeToString (t.sha256 raw)

def ArchiveHolds (t : Tools) (w : World) (path sha : String) (members : List Bytes) : Prop :=
  ∃ raw files, readRegularFile w path = .ok raw ∧ sha = encodeToString (t.sha256 raw) ∧
    t.unzip raw = .ok files ∧ ∀ e ∈ members, e ∈ files.map ZipFile.name

variable {path : String}

theorem readFile_of_regular {raw : Bytes} (read : readRegularFile w path = .ok raw) :
    w.readFile path = .ok raw := by
  rw [readRegularFile] at read
  split at read
  · cases read
  · cases read
  · cases read
  · exact read

variable {bundleDir : String}

theorem verifyHash_ok {label filename want : String}
    (ok : verifyHash t w bundleDir label filename want = .ok u) :
    Hashed t w (join [bundleDir, filename]) want := by
  simp only [verifyHash, sha256OfPath, bind_eq_ok, wrap_eq_ok, refuse_eq_ok, not_not] at ok
  obtain ⟨got, ⟨raw, read, hash⟩, same⟩ := ok
  cases hash
  exact ⟨raw, read, same.symm⟩

variable {m : ArtifactManifest}

theorem verifyManifestHashes_ok (ok : verifyManifestHashes t w bundleDir m = .ok u) :
    Hashed t w (join [bundleDir, base m.artifactPath]) m.artifactSHA256 ∧
      Hashed t w (join [bundleDir, base m.sbomPath]) m.sbomSHA256 ∧
      Hashed t w (join [bundleDir, base m.provenancePath]) m.provenanceSHA256 := by
  simp only [verifyManifestHashes, bind_eq_ok] at ok
  obtain ⟨_, artifact, _, sbom, provenance⟩ := ok
  exact ⟨verifyHash_ok artifact, verifyHash_ok sbom, verifyHash_ok provenance⟩

def Pinned (t : Tools) (w : World) (repoRoot version commit : String) : Prop :=
  ∃ raw pin, readRegularFile w (join [repoRoot, "clients", "native", "openfhe.pin.json"]) =
      .ok raw ∧ t.unmarshalPin raw = .ok pin ∧
    version = pin.openFHEVersion ∧ commit = pin.openFHESourceCommit

variable {repoRoot : String} {sha : String} {members : String → List Bytes} {required : List String}

theorem verifyAgainstOpenFHEPin_ok (ok : verifyAgainstOpenFHEPin t w repoRoot m = .ok u) :
    Pinned t w repoRoot m.openFHEVersion m.openFHESourceCommit := by
  simp only [verifyAgainstOpenFHEPin, bind_eq_ok, wrap_eq_ok, refuse_eq_ok, not_or, not_not] at ok
  obtain ⟨raw, read, pin, parsed, _, -, version, commit⟩ := ok
  exact ⟨raw, pin, read, parsed, version, commit⟩

def CleanAt (w : World) (repoRoot revision : String) : Prop :=
  ∃ head status, w.git repoRoot ["rev-parse", "--verify", "HEAD"] = .ok head ∧
    revision = trimSpace head ∧ w.git repoRoot ["status", "--porcelain"] = .ok status ∧
    trimSpace status = ""

theorem verifyCleanSourceRevision_ok {revision : String}
    (ok : verifyCleanSourceRevision w repoRoot revision = .ok u) : CleanAt w repoRoot revision := by
  simp only [verifyCleanSourceRevision, bind_eq_ok, wrap_eq_ok, refuse_eq_ok, not_not] at ok
  obtain ⟨head, atHead, _, same, status, asked, clean⟩ := ok
  exact ⟨head, status, atHead, same.symm, asked, clean⟩

theorem verifyAppleDeploymentTarget_ok {apple : ArtifactManifest}
    {inspect : String → Except String (List String)}
    (ok : verifyAppleDeploymentTarget t w repoRoot apple path inspect = .ok u) :
    readDeclaredAppleDeploymentTarget t w repoRoot = .ok apple.appleMACOSDeploymentTarget := by
  simp only [verifyAppleDeploymentTarget, bind_eq_ok, refuse_eq_ok, not_not] at ok
  obtain ⟨_, -, declared, read, _, same, -⟩ := ok
  rw [same]
  exact read

theorem verifySwiftReleaseManifest_ok (ok : verifySwiftReleaseManifest t w repoRoot = .ok sha) :
    Hashed t w (join [repoRoot, "clients", "swift", "Package.release.swift"]) sha := by
  simp only [verifySwiftReleaseManifest, bind_eq_ok, wrap_eq_ok] at ok
  obtain ⟨raw, read, _, -, out⟩ := ok
  cases out
  exact ⟨raw, read, rfl⟩

theorem checkAppleSlice_ok {present : List Bytes} {slice : String}
    (ok : checkAppleSlice path present slice = .ok u) : ∀ e ∈ appleMembers slice, e ∈ present := by
  simp only [checkAppleSlice, bind_eq_ok, refuse_eq_ok, not_or, Bool.not_eq_false,
    decide_eq_true_eq] at ok
  obtain ⟨_, -, lib, header, modulemap⟩ := ok
  simp only [appleMembers, forall_mem_cons]
  exact ⟨lib, header, modulemap, forall_mem_nil _⟩

theorem checkAndroidABI_ok {present : List Bytes} {abi : String}
    (ok : checkAndroidABI path present abi = .ok u) : ∀ e ∈ androidMembers abi, e ∈ present := by
  simp only [checkAndroidABI, refuse_eq_ok, not_not, filter_eq_nil_iff,
    decide_eq_true_eq] at ok
  simp only [androidMembers, forall_mem_map]
  exact ok

theorem archiveHolds_of_opened {files : List ZipFile} {members : List Bytes}
    (hashed : Hashed t w path sha) (opened : openReader t w path = .ok files)
    (present : ∀ e ∈ members, e ∈ files.map ZipFile.name) : ArchiveHolds t w path sha members := by
  obtain ⟨raw, read, hash⟩ := hashed
  rw [openReader, readFile_of_regular read] at opened
  exact ⟨raw, files, read, hash, opened, present⟩

theorem checkAppleXCFrameworkContents_ok {platforms : List String}
    (hashed : Hashed t w path sha) (ok : checkAppleXCFrameworkContents t w path platforms = .ok u) :
    ∀ slice ∈ platforms, ArchiveHolds t w path sha (appleMembers slice) := by
  simp only [checkAppleXCFrameworkContents, bind_eq_ok, wrap_eq_ok] at ok
  obtain ⟨files, opened, _, -, slices⟩ := ok
  intro slice mem
  exact archiveHolds_of_opened hashed opened (checkAppleSlice_ok (forM_eq_ok.mp slices slice mem))

theorem checkAndroidAARContents_ok {abis : List String}
    (hashed : Hashed t w path sha) (ok : checkAndroidAARContents t w path abis = .ok u) :
    ∀ abi ∈ abis, ArchiveHolds t w path sha (androidMembers abi) := by
  simp only [checkAndroidAARContents, bind_eq_ok, wrap_eq_ok] at ok
  obtain ⟨files, opened, each⟩ := ok
  intro abi mem
  exact archiveHolds_of_opened hashed opened (checkAndroidABI_ok (forM_eq_ok.mp each abi mem))

theorem loadStagingManifest_kind {kind : String}
    (ok : loadStagingManifest t w bundleDir kind = .ok m) : m.artifactKind = kind := by
  simp only [loadStagingManifest, bind_eq_ok] at ok
  obtain ⟨_, -, manifests, -, one⟩ := ok
  split at one
  · cases one
  · next only =>
    cases one
    have mem : m ∈ manifests.filter (·.artifactKind = kind) := by simp [only]
    simpa using (mem_filter.mp mem).2
  · cases one

/-- The record of one platform: the files it names have the hashes it gives, and its archive has
what each of its architectures needs. -/
structure CertifiedRef (t : Tools) (w : World) (bundleDir kind : String)
    (members : String → List Bytes) (ref : ArtifactRef) : Prop where
  kind_eq : ref.artifactKind = kind
  artifact : Hashed t w (join [bundleDir, ref.artifactFile]) ref.artifactSHA256
  sbom : Hashed t w (join [bundleDir, ref.sbomFile]) ref.sbomSHA256
  provenance : Hashed t w (join [bundleDir, ref.provenanceFile]) ref.provenanceSHA256
  architectures : ∀ a ∈ ref.targetArchitectures,
    ArchiveHolds t w (join [bundleDir, ref.artifactFile]) ref.artifactSHA256 (members a)

/-- Every field but the time of day comes from the files, from a pin or from git. -/
structure Certified (t : Tools) (w : World) (bundleDir repoRoot : String)
    (m : ReleaseCacheManifest) : Prop where
  schema : m.schemaVersion = 1
  revision : CleanAt w repoRoot m.aresCoreSourceRevision
  openFHE : Pinned t w repoRoot m.openFHEVersion m.openFHESourceCommit
  apple : CertifiedRef t w bundleDir artifactKindAppleXCFramework appleMembers m.apple
  android : CertifiedRef t w bundleDir artifactKindAndroidAAR androidMembers m.android
  appleTarget : readDeclaredAppleDeploymentTarget t w repoRoot =
    .ok m.apple.appleMACOSDeploymentTarget
  androidTarget : m.android.appleMACOSDeploymentTarget = "" ∨
    readDeclaredAppleDeploymentTarget t w repoRoot = .ok m.android.appleMACOSDeploymentTarget
  swift : Hashed t w (join [repoRoot, "clients", "swift", "Package.release.swift"])
    m.swiftReleaseManifestSHA256

def ExtrasHeld (t : Tools) (w : World) (bundleDir : String) (required : List String)
    (members : String → List Bytes) (m : ArtifactManifest) : Prop :=
  ∀ a ∈ m.targetArchitectures, a ∉ required →
    ArchiveHolds t w (join [bundleDir, base m.artifactPath]) m.artifactSHA256 (members a)

/-- What `Assemble` does not look at in the staging manifests. -/
structure Covered (t : Tools) (w : World) (bundleDir repoRoot : String)
    (apple android : ArtifactManifest) : Prop where
  appleExtras : ExtrasHeld t w bundleDir requiredApplePlatforms appleMembers apple
  androidExtras : ExtrasHeld t w bundleDir requiredAndroidABIs androidMembers android
  androidTarget : android.appleMACOSDeploymentTarget = "" ∨
    readDeclaredAppleDeploymentTarget t w repoRoot = .ok android.appleMACOSDeploymentTarget

theorem ExtrasHeld.of_subset (subset : ∀ a ∈ m.targetArchitectures, a ∈ required) :
    ExtrasHeld t w bundleDir required members m :=
  fun a claimed extra => absurd (subset a claimed) extra

theorem certifiedRef_iff {bundleDir kind : String}
    (isKind : m.artifactKind = kind) (hashes : verifyManifestHashes t w bundleDir m = .ok u)
    (held : ∀ a ∈ required, ArchiveHolds t w (join [bundleDir, base m.artifactPath])
      m.artifactSHA256 (members a)) :
    CertifiedRef t w bundleDir kind members (toArtifactRef m) ↔
      ExtrasHeld t w bundleDir required members m := by
  constructor
  · intro certified a claimed _
    exact certified.architectures a claimed
  · intro extras
    obtain ⟨artifact, sbom, provenance⟩ := verifyManifestHashes_ok hashes
    refine ⟨isKind, artifact, sbom, provenance, ?_⟩
    intro a claimed
    by_cases needed : a ∈ required
    · exact held a needed
    · exact extras a claimed needed

/-- `Assemble` certifies what it returns exactly when the architectures claimed beyond the required
ones are in the archives and the Android manifest has no deployment target of its own. -/
theorem assemble_certifies_iff {bundleDir repoRoot now : String}
    {inspect : String → Except String (List String)} {m : ReleaseCacheManifest}
    (ok : assemble t w bundleDir repoRoot inspect now = .ok m) :
    ∃ apple android, loadStagingManifest t w bundleDir artifactKindAppleXCFramework = .ok apple ∧
      loadStagingManifest t w bundleDir artifactKindAndroidAAR = .ok android ∧
      (Certified t w bundleDir repoRoot m ↔ Covered t w bundleDir repoRoot apple android) := by
  simp only [assemble, bind_eq_ok] at ok
  obtain ⟨apple, loadApple, android, loadAndroid, _, hashApple, _, hashAndroid, _, -, _, -, _, -,
    _, pin, _, -, _, revision, _, -, _, -, _, contentsApple, _, target, _, contentsAndroid, sha,
    swift, out⟩ := ok
  cases out
  have slices :=
    checkAppleXCFrameworkContents_ok (verifyManifestHashes_ok hashApple).1 contentsApple
  have abis := checkAndroidAARContents_ok (verifyManifestHashes_ok hashAndroid).1 contentsAndroid
  have appleIff := certifiedRef_iff (loadStagingManifest_kind loadApple) hashApple slices
  have androidIff := certifiedRef_iff (loadStagingManifest_kind loadAndroid) hashAndroid abis
  refine ⟨apple, android, loadApple, loadAndroid, ?_⟩
  constructor
  · intro certified
    exact ⟨appleIff.mp certified.apple, androidIff.mp certified.android, certified.androidTarget⟩
  · intro covered
    exact {
      schema := rfl
      revision := verifyCleanSourceRevision_ok revision
      openFHE := verifyAgainstOpenFHEPin_ok pin
      apple := appleIff.mpr covered.appleExtras
      android := androidIff.mpr covered.androidExtras
      appleTarget := verifyAppleDeploymentTarget_ok target
      androidTarget := covered.androidTarget
      swift := verifySwiftReleaseManifest_ok swift }

end

def sampleApple : ArtifactManifest where
  artifactKind := artifactKindAppleXCFramework
  artifactPath := "/out/core.zip"
  artifactSHA256 := "03"
  openFHEVersion := "v1"
  openFHESourceCommit := "c0ffee"
  aresCoreSourceRevision := "f00d"
  targetArchitectures := requiredApplePlatforms
  sbomPath := "/out/sbom"
  sbomSHA256 := "09"
  provenancePath := "/out/provenance"
  provenanceSHA256 := "09"
  appleMACOSDeploymentTarget := "14.0"

def sampleAndroid (abis : List String) : ArtifactManifest :=
  { sampleApple with
    artifactKind := artifactKindAndroidAAR
    artifactPath := "/out/core.aar"
    artifactSHA256 := "04"
    targetArchitectures := abis
    appleMACOSDeploymentTarget := "" }

def zipOf (names : List Bytes) : List ZipFile := names.map fun name => ⟨name, false, false⟩

def sampleTools (abis : List String) : Tools where
  sha256 raw := raw
  unmarshalManifest raw :=
    if raw = [1] then .ok sampleApple
    else if raw = [2] then .ok (sampleAndroid abis) else .error "not a manifest"
  unmarshalPin _ := .ok ⟨"v1", "c0ffee", "26"⟩
  unmarshalDeploymentTargetPin _ := .ok "14.0"
  unzip raw :=
    if raw = [3] then .ok (zipOf (requiredApplePlatforms.flatMap appleMembers))
    else if raw = [4] then .ok (zipOf (requiredAndroidABIs.flatMap androidMembers))
    else .error "not an archive"

def sampleSwift : Bytes :=
  utf8 ".binaryTarget(name: \"COpenFHEBridge\", path: \"Artifacts/AresPrivacyCore.xcframework\")"

def sampleFiles : List (String × Bytes) :=
  [("bundle/apple.staging-manifest.json", [1]), ("bundle/android.staging-manifest.json", [2]),
    ("bundle/core.zip", [3]), ("bundle/core.aar", [4]),
    ("repo/clients/swift/Package.release.swift", sampleSwift)]

def sampleWorld : World where
  lstat _ := .ok .regular
  readFile path := .ok ((sampleFiles.lookup path).getD [9])
  readDir _ := .ok
    [⟨"apple.staging-manifest.json", false⟩, ⟨"android.staging-manifest.json", false⟩]
  git _ args := .ok (if args.head? = some "rev-parse" then "f00d\n" else "")

def sampleManifest (abis : List String) : ReleaseCacheManifest where
  schemaVersion := 1
  aresCoreSourceRevision := "f00d"
  openFHEVersion := "v1"
  openFHESourceCommit := "c0ffee"
  apple := ⟨artifactKindAppleXCFramework, "core.zip", "03", requiredApplePlatforms, "sbom", "09",
    "provenance", "09", "14.0"⟩
  android := ⟨artifactKindAndroidAAR, "core.aar", "04", abis, "sbom", "09", "provenance", "09", ""⟩
  swiftReleaseManifestSHA256 := encodeToString sampleSwift
  generatedAt := "now"

theorem assemble_sample : assemble (sampleTools requiredAndroidABIs) sampleWorld "bundle" "repo"
    (fun _ => .ok ["14.0"]) "now" = .ok (sampleManifest requiredAndroidABIs) := by
  decide +kernel

theorem assemble_certifies_sample :
    Certified (sampleTools requiredAndroidABIs) sampleWorld "bundle" "repo"
      (sampleManifest requiredAndroidABIs) := by
  obtain ⟨apple, android, loadApple, loadAndroid, certifies⟩ :=
    assemble_certifies_iff assemble_sample
  have appleIs : apple = sampleApple := by
    have load : loadStagingManifest (sampleTools requiredAndroidABIs) sampleWorld "bundle"
        artifactKindAppleXCFramework = .ok sampleApple := by decide +kernel
    exact Except.ok.inj (loadApple.symm.trans load)
  have androidIs : android = sampleAndroid requiredAndroidABIs := by
    have load : loadStagingManifest (sampleTools requiredAndroidABIs) sampleWorld "bundle"
        artifactKindAndroidAAR = .ok (sampleAndroid requiredAndroidABIs) := by decide +kernel
    exact Except.ok.inj (loadAndroid.symm.trans load)
  rw [appleIs, androidIs] at certifies
  exact certifies.mpr ⟨.of_subset fun _ mem => mem, .of_subset fun _ mem => mem, .inl rfl⟩

/-- An Android manifest that claims one more ABI than its archive has passes. -/
theorem extra_abi_certified :
    let abis := requiredAndroidABIs ++ ["riscv64"]
    assemble (sampleTools abis) sampleWorld "bundle" "repo" (fun _ => .ok ["14.0"]) "now" =
        .ok (sampleManifest abis) ∧
      "riscv64" ∈ (sampleManifest abis).android.targetArchitectures ∧
      ¬ ArchiveHolds (sampleTools abis) sampleWorld "bundle/core.aar" "04"
        (androidMembers "riscv64") := by
  refine ⟨by decide +kernel, by decide, ?_⟩
  rintro ⟨raw, files, read, -, opened, present⟩
  have content : readRegularFile sampleWorld "bundle/core.aar" = .ok [4] := by decide +kernel
  cases Except.ok.inj (read.symm.trans content)
  have members : (sampleTools (requiredAndroidABIs ++ ["riscv64"])).unzip [4] =
    .ok (zipOf (requiredAndroidABIs.flatMap androidMembers)) := rfl
  cases Except.ok.inj (opened.symm.trans members)
  have missing : androidMember "riscv64" "libares_fhe_jni.so" ∉
      (zipOf (requiredAndroidABIs.flatMap androidMembers)).map ZipFile.name := by decide +kernel
  exact missing (present _ (mem_map_of_mem (by decide)))

end ReleaseBundle

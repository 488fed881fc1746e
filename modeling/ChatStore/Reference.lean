import ChatStore.Library.Base64
import ChatStore.Library.Hex
import ChatStore.Library.Protobuf
import ChatStore.Service

/-!
# Crates to evaluate the model with

The model leaves the functions of other crates open. This file fills them in, so that a run can be
computed and the laws are seen to hold of something. Hex, base64 and protobuf are the formats
themselves. The secret keys of thirty-two ones and of thirty-two twos stand for all of them:
`signed` lists what they signed, and nothing else verifies. An account log is a list of device keys.
-/

namespace ChatStore

open Library

namespace Reference

/-! ## Signed bundles -/

/-- The `n` bytes of a number, highest first. -/
def bigEndian : (n : ℕ) → ℕ → FixedBytes n
  | 0, _ => ⟨[], rfl⟩
  | n + 1, v => ⟨UInt8.ofNat (v / 256 ^ n) :: (bigEndian n v).val, by simp [(bigEndian n v).2]⟩

def ascii (s : String) : Bytes := s.toList.map fun c ↦ UInt8.ofNat c.toNat

/-- The public key of thirty-two ones. -/
def publicKey : FixedBytes 32 :=
  bigEndian 32 0x8a88e3dd7409f195fd52db2d3cba5d72ca6709bf1d94121bf3748801b40f6f5c

/-- The public key of thirty-two twos. -/
def otherKey : FixedBytes 32 :=
  bigEndian 32 0x8139770ea87d175f56a35466c34c7ecccb8d8a91b4ee37a25df60f5b8fc9b394

/-- The public key of thirty-two threes. -/
def deviceKey : FixedBytes 32 :=
  bigEndian 32 0xed4928c628d1c2c6eae90338905995612959273a5c63f93636c14614ac8737d1

/-- A bundle with the halves of its signature. -/
def signedBy (key : FixedBytes 32) (payload : Bytes) (r s : ℕ) : Bundle :=
  ⟨key, payload, (bigEndian 32 r).val ++ (bigEndian 32 s).val, by
    rw [List.length_append, (bigEndian 32 r).2, (bigEndian 32 s).2]⟩

def keyPackageA : Bundle :=
  signedBy publicKey (ascii "ts-and-keypackage-bytes")
    0x416ce263727226eb32821c6060a75f422db4665a7d616c2027d65425ec157c8e
    0x6d0efe9ae67cd857f9b5f9d9ae2cb932bf655104d82be12eb99a6613086e660d

def keyPackageB : Bundle :=
  signedBy publicKey (ascii "ts-and-other-keypackage")
    0xd2b2baae211c587ff94cb04de541f9da5fdbb78dd7d458f287ace705f3921ac0
    0x21053c7a2c1b5959d195b90b06ba11fb195c8ab5053d430ecf1cbd7153815b05

def otherKeyPackage : Bundle :=
  signedBy otherKey (ascii "ts-and-keypackage-bytes")
    0x4773279eb270570048f30a7a6e3971e8c3c3319587ca0aaf9648a9cde6607058
    0x52cf57f09f53cd1bfcc9ca23fa6104b2cc5aab28e462fc8fb6b100d16ddc4b02

/-- A bundle of lamport 5. -/
def accountBundle5 : Bundle :=
  signedBy publicKey (bundleDomain ++ [1, 5, 0, 0, 0, 0, 0, 0, 0])
    0xf115c90f647df6dd8630be56f17f94d7fb140916c9a5d8d0955311b1350d9c8e
    0x7721312d84e4bc74800b9bcb15a9249a6b5e3c011a414d07ee94b58f76300c0d

/-- A bundle of lamport 6. -/
def accountBundle6 : Bundle :=
  signedBy publicKey (bundleDomain ++ [1, 6, 0, 0, 0, 0, 0, 0, 0])
    0x7561da398cb9968714315ff053de6413b3f7ac111d96d0bc74fe0d9ee7ace7bf
    0xd015c21944bfce544cb81266340bbacb009bfa49aeedc1c6489f7e7d3be30402

/-- The log of an account that has endorsed nothing yet. -/
def accountLog0 : Bundle :=
  signedBy publicKey []
    0x778cda0634c021fae8b1a9fa655ba13230f6fcfc5c5d519afb0872ec9bf1d642
    0x41cc3eed8ad47270d86d30e762ad17677c6fb1797e35bca7eba30388257e020f

def accountLog2 : Bundle :=
  signedBy publicKey otherKey.val
    0xfb7e0047ad2e917febc064ab715e1d2d6cfdfed33185fb853189b80030404b8c
    0x3f94892a50868c05006daf03419e8f99dc29a63c98611ba69b1a1c123b91dc0c

def accountLog23 : Bundle :=
  signedBy publicKey (otherKey.val ++ deviceKey.val)
    0x8b2b228973b4ae0c133b5e96a3d7d5d79dbbec0f5c2b0db3336ca792ab093dbe
    0x48f4b02593abac76d6660afbb08ef96839169b8b5a0639dda4f154b793351803

def accountLog3 : Bundle :=
  signedBy publicKey deviceKey.val
    0x305b8a49c6682810f1888b7072ad5d7ba167c86eab9fdf842c33ea4ebad3ded0
    0xac9cec0bc7171561455793a0ffddbe211d10c78e8e4d7310246ebdd004026e05

/-- Everything that verifies. -/
def signed : List Bundle :=
  [keyPackageA, keyPackageB, otherKeyPackage, accountBundle5, accountBundle6, accountLog0,
    accountLog2, accountLog23, accountLog3]

def isVerifyingKey (key : FixedBytes 32) : Bool := key = publicKey || key = otherKey

def verifyStrict (key : FixedBytes 32) (payload : Bytes) (signature : FixedBytes 64) : Bool :=
  ⟨key, payload, signature⟩ ∈ signed

/-! ## Account logs -/

inductive AccountLogError
  | signatureInvalid
  | malformed
  deriving DecidableEq

/-- A log with its signature in front, as it is transmitted. -/
structure SignedLog where
  signature : FixedBytes 64
  payload : Bytes
  deriving DecidableEq

def SignedLog.toBytes (signed : SignedLog) : Bytes := signed.signature.val ++ signed.payload

def SignedLog.fromBytes (bytes : Bytes) : Except AccountLogError SignedLog :=
  if h : 64 ≤ bytes.length then .ok ⟨⟨bytes.take 64, List.length_take_of_le h⟩, bytes.drop 64⟩
  else .error .malformed

/-- A log that verifies under its address. -/
structure Record where
  addr : FixedBytes 32
  signedLog : SignedLog
  deriving DecidableEq

def signatureValid (addr : FixedBytes 32) (signed : SignedLog) : Bool :=
  isVerifyingKey addr && verifyStrict addr signed.payload signed.signature

/-- A log decodes when it consists of whole device keys. -/
def logDecodes (signed : SignedLog) : Bool := signed.payload.length % 32 = 0

def newRecord (addr : FixedBytes 32) (signed : SignedLog) : Except AccountLogError Record :=
  if signatureValid addr signed then
    if logDecodes signed then .ok ⟨addr, signed⟩ else .error .malformed
  else .error .signatureInvalid

def Record.update (r : Record) (signed : SignedLog) : AccountRecordUpdate Record :=
  let outcome := logOutcome r.signedLog.payload signed.payload
  ⟨outcome, if outcome = .updated then ⟨r.addr, signed⟩ else r⟩

def parseAddr (s : String) : Option (FixedBytes 32) :=
  (Hex.decode s).bind fun bs ↦ if h : bs.length = 32 then some ⟨bs, h⟩ else none

def log : AccountLogCrate where
  AccountAddr := FixedBytes 32
  SignedAccountLog := SignedLog
  AccountRecord := Record
  AccountLogError := AccountLogError
  parseAddr := parseAddr
  addrToString addr := Hex.encode addr.val
  fromBytes := SignedLog.fromBytes
  toBytes := SignedLog.toBytes
  payload := SignedLog.payload
  signatureValid := signatureValid
  logDecodes := logDecodes
  newRecord := newRecord
  recordAddr := Record.addr
  recordSignedLog := Record.signedLog
  update := Record.update
  isSignatureInvalid err := err = .signatureInvalid
  errorToString
    | .signatureInvalid => "account log: invalid signature"
    | .malformed => "account log: malformed"

theorem newRecord_eq_ok_iff {addr : FixedBytes 32} {signed : SignedLog} {r : Record} :
    newRecord addr signed = .ok r
      ↔ signatureValid addr signed = true ∧ logDecodes signed = true ∧ r = ⟨addr, signed⟩ := by
  rw [newRecord]
  split_ifs with hsig hdec
  · rw [Except.ok.injEq]
    exact ⟨fun h ↦ ⟨hsig, hdec, h.symm⟩, fun h ↦ h.2.2.symm⟩
  · simp [hdec]
  · simp [hsig]

theorem log_laws : log.Laws where
  fromBytes_toBytes signed := by
    obtain ⟨⟨signature, hlen⟩, payload⟩ := signed
    have h : 64 ≤ (signature ++ payload).length := by rw [List.length_append]; omega
    simp only [log, SignedLog.fromBytes, SignedLog.toBytes, dif_pos h, Except.ok.injEq,
      SignedLog.mk.injEq, Subtype.mk.injEq]
    exact ⟨by rw [← hlen, List.take_left], by rw [← hlen, List.drop_left]⟩
  toBytes_fromBytes bytes signed h := by
    simp only [log, SignedLog.fromBytes] at h
    split_ifs at h with hlen
    · obtain rfl := Except.ok.inj h
      exact List.take_append_drop 64 bytes
  addrToString_injective addr addr' h := Subtype.ext (Hex.encode_injective h)
  newRecord_ok_iff addr signed := by
    constructor
    · rintro ⟨r, hr⟩
      obtain ⟨hsig, hdec, -⟩ := newRecord_eq_ok_iff.mp hr
      exact ⟨hsig, hdec⟩
    · rintro ⟨hsig, hdec⟩
      exact ⟨⟨addr, signed⟩, newRecord_eq_ok_iff.mpr ⟨hsig, hdec, rfl⟩⟩
  newRecord_parts addr signed r h := by
    obtain ⟨-, -, rfl⟩ := newRecord_eq_ok_iff.mp h
    exact ⟨rfl, rfl⟩
  update_outcome addr stored submitted r r' hr hr' := by
    obtain ⟨-, -, rfl⟩ := newRecord_eq_ok_iff.mp hr
    rfl
  update_record addr stored submitted r r' hr hr' hout := by
    obtain ⟨-, -, rfl⟩ := newRecord_eq_ok_iff.mp hr
    obtain ⟨-, -, rfl⟩ := newRecord_eq_ok_iff.mp hr'
    exact if_pos hout

/-! ## The crates -/

def crates : Crates where
  hexEncode := Hex.encode
  hexDecode := Hex.decode
  base64Encode := Base64.encode
  base64Decode := Base64.decode
  isVerifyingKey := isVerifyingKey
  verifyStrict := verifyStrict
  encodeKeyPackage m := Protobuf.message m.deviceId m.payload m.signature
  decodeKeyPackage bytes := (Protobuf.readMessage bytes).map fun (a, b, c) ↦ ⟨a, b, c⟩
  encodeAccount m := Protobuf.message m.accountPub m.payload m.signature
  decodeAccount bytes := (Protobuf.readMessage bytes).map fun (a, b, c) ↦ ⟨a, b, c⟩
  log := log

theorem hexLaws : crates.HexLaws where
  decode_encode := Hex.decode_encode
  decode_ignores_case _ _ h := Hex.decode_eq_of_toLower h
  encode_lower _ _ hc := Hex.mem_digits_of_mem_encode hc

theorem base64Laws : crates.Base64Laws where
  decode_encode := Base64.decode_encode

theorem prostLaws : crates.ProstLaws where
  decode_encode_keyPackage m := by
    simp only [crates, Protobuf.readMessage_message, Option.map_some]
  decode_encode_account m := by
    simp only [crates, Protobuf.readMessage_message, Option.map_some]

example : signed.all (Bundle.authentic crates) = true := by decide +kernel

/-! ## Requests -/

def deliverKeyPackage (b : Bundle) : Request :=
  .ingestKeypackage (crates.encodeKeyPackage ⟨b.key.val, b.payload, b.signature.val⟩)

def postKeyPackage (b : Bundle) : Request :=
  .submitKeyPackage ⟨Hex.encode b.key.val, Base64.encode b.payload, Base64.encode b.signature.val⟩

def deliverAccount (b : Bundle) : Request :=
  .ingestAccount (crates.encodeAccount ⟨b.key.val, b.payload, b.signature.val⟩)

theorem effect_deliverKeyPackage (b : Bundle) :
    (deliverKeyPackage b).effect crates = .keypackage b := by
  have hbundle : Bundle.fromBytes (A := crates.log) b.key.val b.payload b.signature.val = .ok b :=
    fromBytes_eq_ok_iff.mpr ⟨rfl, rfl, rfl⟩
  simp only [deliverKeyPackage, Request.effect, prostLaws.decode_encode_keyPackage, hbundle,
    submissionEffect]

def postAccountLog (b : Bundle) : Request :=
  .submitAccountLog (Hex.encode b.key.val) (b.signature.val ++ b.payload)

end Reference

end ChatStore

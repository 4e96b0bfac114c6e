import Specter.Tunnel

/-!
# Grants

A grant for a hostname is a record under the digest of a secret, which is the token of the grant,
and its id is kept in an index of the owner's grants.  No two of these calls hold a lease in common.
-/

namespace Specter.Tunnel

open Lib
open Config (Digest)

section Tokens

variable (sha256 : Bytes → Digest)

def delegationTokenPrefix : String := "tg1_"

def encodeDelegationToken (secret : Bytes) : String :=
  delegationTokenPrefix ++ .ofList (Base64.encode secret)

def parseDelegationToken (token : Bytes) : Option Bytes :=
  if token.length ≠ 47 ∨ token.take 4 ≠ delegationTokenPrefix.toUTF8.toList then none
  else (Base64.decodeStrict (chars (token.drop 4))).filter fun raw => raw.length == 32

def delegationID (secret : Bytes) : String := hex (sha256 secret).toList

def isDelegationID (id : String) : Bool := id.utf8ByteSize == 64 && lowerHex id.toUTF8.toList

end Tokens

def readDelegation (id : String) : Rpc (Except Failure DelegationRecord) :=
  if !isDelegationID id then return .error .delegationInvalid
  else do
    match ← kv (.get (.delegation id)) with
    | .error e => return .error (.kv e)
    | .ok none => return .error .delegationNotFound
    | .ok (some (.delegation rec)) =>
      if rec.version ≠ delegationRecordVersion ∨ rec.id ≠ id ∨ rec.owner = [] ∨
          rec.hostname = "" ∨ rec.expiresAt < 0 then
        return .error .delegationInvalid
      else return .ok rec
    | .ok (some _) => return .error .delegationInvalid

def findCustomHostname (hostname : Hostname) : Rpc (Except Failure CustomHostname) := do
  match ← kv (.get (.customHostname hostname)) with
  | .error e => return .error (.kv e)
  | .ok none => return .error .hostnameNotFound
  | .ok (some (.custom c)) => return .ok c
  | .ok (some _) => return .error .malformed

def ownsHostname (owner : Token) (hostname : Hostname) : Rpc (Except Failure Bool) := do
  match ← kv (.prefixContains (.clientHostnames owner) hostname) with
  | .error e => return .error (.kv e)
  | .ok false => return .ok false
  | .ok true =>
    if hostname.dotted then
      match ← findCustomHostname hostname with
      | .error .hostnameNotFound => return .ok false
      | .error f => return .error f
      | .ok custom => return .ok (custom.clientToken = owner)
    else return .ok true

def verifyDelegatedAuthority (rec : DelegationRecord) : Rpc (Except Failure Unit) := do
  match ← ownsHostname rec.owner rec.hostname with
  | .error f => return .error f
  | .ok false => return .error .delegationNotOwned
  | .ok true => return .ok ()

def delegationAuthorityError (f : Failure) : RpcError :=
  if f = .delegationNotOwned then Code.permissionDenied.because "" f
  else Code.unavailable.because "" f

/-- The expiry of a grant on the clock. -/
def DelegationRecord.expiry (rec : DelegationRecord) : Option ℤ :=
  if rec.expiresAt = 0 then none else some (rec.expiresAt * second)

def grantFromRecord (rec : DelegationRecord) : DelegationGrant :=
  ⟨rec.id, rec.hostname, rec.expiresAt, false⟩

section Calls

variable (normalize : String → Except String Hostname) (sha256 : Bytes → Digest)

def normalizeDelegationHostname (hostname : Hostname) : Except String Hostname :=
  if hostname.dotted then normalize hostname else .ok hostname

def writeDelegation (rec : DelegationRecord) (secret : Bytes) : Rpc (Except RpcError Response) := do
  match ← kv (.prefixAppend (.clientDelegations rec.owner) rec.id) with
  | .error e => return .error (Code.unavailable.because "" (.kv e))
  | .ok () =>
    match ← kv (.put (.delegation rec.id) (.delegation rec)) with
    | .error e => return .error (Code.unavailable.because "grant may be incomplete" (.kv e))
    | .ok () => return .ok (.minted (grantFromRecord rec) (encodeDelegationToken secret))

def mintDelegation (owner : Token) (hostname : Hostname) (expiresAt : ℤ) (secret : Bytes) :
    Rpc (Except RpcError Response) :=
  match normalizeDelegationHostname normalize hostname with
  | .error msg => return .error (Code.invalidArgument.error msg)
  | .ok hostname => do
    let time ← now
    if expiresAt ≠ 0 ∧ expiresAt ≤ time / second then
      return .error (Code.invalidArgument.error "expires_at must be in the future")
    else
      let rec' : DelegationRecord :=
        ⟨delegationRecordVersion, delegationID sha256 secret, owner, hostname, expiresAt⟩
      match ← verifyDelegatedAuthority rec' with
      | .error f => return .error (delegationAuthorityError f)
      | .ok () =>
        match ← kv (.prefixList (.clientDelegations owner)) with
        | .error e => return .error (Code.unavailable.because "" (.kv e))
        | .ok ids =>
          if ids.length ≥ maxDelegationsPerOwner then
            return .error (Code.resourceExhausted.error
              "delegation limit reached; revoke unused or incomplete grants")
          else writeDelegation rec' secret

def listedGrant (owner : Token) (id : String) : Rpc (Except Failure DelegationGrant) := do
  match ← readDelegation id with
  | .error .delegationNotFound | .error .delegationInvalid => return .ok ⟨id, "", 0, true⟩
  | .error f => return .error f
  | .ok rec =>
    if rec.owner ≠ owner then return .ok ⟨id, "", 0, true⟩ else return .ok (grantFromRecord rec)

/-- The grants, eight at a time. -/
def listBatches (owner : Token) : List (List String) → Rpc (Except RpcError (List DelegationGrant))
  | [] => return .ok []
  | batch :: rest => do
    match firstError (← promiseAll (batch.map (listedGrant owner))) with
    | .error f => return .error (Code.unavailable.because "" f)
    | .ok grants =>
      match ← listBatches owner rest with
      | .error e => return .error e
      | .ok more => return .ok (grants ++ more)

def listDelegations (owner : Token) : Rpc (Except RpcError Response) := do
  match ← kv (.prefixList (.clientDelegations owner)) with
  | .error e => return .error (Code.unavailable.because "" (.kv e))
  | .ok ids =>
    match ← listBatches owner ((ids.take maxDelegationsPerOwner).toChunks 8) with
    | .error e => return .error e
    | .ok grants => return .ok (.grants grants)

def deleteDelegation (owner : Token) (id : String) : Rpc (Except RpcError Response) := do
  match ← kv (.delete (.delegation id)) with
  | .error e => return .error (Code.unavailable.because "" (.kv e))
  | .ok () =>
    match ← kv (.prefixRemove (.clientDelegations owner) id) with
    | .error e => return .ok (.revoked (some e))
    | .ok () => return .ok (.revoked none)

/-- Deletes the grant of an owner whose record does not say so, if the index does. -/
def deleteIndexed (owner : Token) (id : String) : Rpc (Except RpcError Response) := do
  match ← kv (.prefixContains (.clientDelegations owner) id) with
  | .error e => return .error (Code.unavailable.because "" (.kv e))
  | .ok false => return .error (Code.notFound.error "grant is not owned by this client")
  | .ok true => deleteDelegation owner id

def revokeDelegation (owner : Token) (id : String) : Rpc (Except RpcError Response) :=
  if !isDelegationID id then return .error (Code.invalidArgument.error "invalid grant ID")
  else do
    match ← readDelegation id with
    | .error .delegationNotFound | .error .delegationInvalid => deleteIndexed owner id
    | .error f => return .error (Code.unavailable.because "" f)
    | .ok rec => if rec.owner ≠ owner then deleteIndexed owner id else deleteDelegation owner id

end Calls

end Specter.Tunnel

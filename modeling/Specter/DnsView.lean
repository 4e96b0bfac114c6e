import Mathlib.Data.List.AList
import Specter.Dns
import Specter.VersionToken

/-!
# The view of the DNS server

The server answers from a view that is built from one record.  A record that is accepted and has a
greater version replaces it.  `ApplyConfig` holds a lock, so its calls follow one another.  How a
document is read as JSON and an address as bytes is given.
-/

namespace Specter.Dns

open Config

def dnsConfigName : String := "dns"

def dnsConfigSchema : UInt64 := 1

inductive ApplyError where
  | record (err : Config.Error)
  | name
  | schema
  | json
  | config (err : ConfigError)
  | version (err : Config.Error)
  deriving DecidableEq, Repr

structure SOA where
  ns : Text
  mbox : Text
  /-- A `uint32`. -/
  serial : ℕ
  refresh : ℕ
  retry : ℕ
  expire : ℕ
  minttl : ℕ
  deriving DecidableEq

inductive RData where
  | ns (host : Text)
  | a (ip : Bytes)
  | aaaa (ip : Bytes)
  | soa (soa : SOA)
  deriving DecidableEq

structure RR where
  name : Text
  ttl : ℕ
  data : RData
  deriving DecidableEq

abbrev Records := AList fun _ : Text => List RR

structure DnsView where
  version : Bytes
  soa : SOA
  records : Records

structure DNS where
  domain : Text
  email : Text
  view : Option DnsView

/-- `append(view.records[name], …)`; every record lives for an hour. -/
def addRecord (records : Records) (name : Text) (data : RData) : Records :=
  records.insert name ((records.lookup name).getD [] ++ [⟨name, 3600, data⟩])

section View

variable {Addr : Type} (N : Libraries Addr) (parseIP : Text → Bytes)

def addAddress (host : Text) (records : Records) (ip : Text) : Records :=
  addRecord records host (if ':' ∈ ip then .aaaa (parseIP ip) else .a (parseIP ip))

def addNameserver (domain : Text) (records : Records) (ns : DNSNameserver) : Records :=
  let records := addRecord records domain (.ns ns.host)
  if N.isSubDomain domain ns.host then ns.addresses.foldl (addAddress parseIP ns.host) records
  else records

def buildView (domain email : Text) (dnsConfig : DNSConfig) (record : Record) : DnsView :=
  let soa : SOA :=
    { ns := (dnsConfig.nameservers.head?.map (·.host)).getD []
      mbox := N.canonicalName (email.map fun c => if c = '@' then '.' else c)
      serial := record.version.revision.toNat % 2 ^ 32
      refresh := 28800
      retry := 7200
      expire := 604800
      minttl := 86400 }
  { version := record.token.toUTF8.toList
    soa
    records := addRecord (dnsConfig.nameservers.foldl (addNameserver N parseIP domain) ∅) domain
      (.soa soa) }

end View

section Apply

variable {Addr : Type} [DecidableEq Addr] (sha256 : Bytes → Digest)
  (decodeJSON : Bytes → Option DNSConfig) (N : Libraries Addr) (parseIP : Text → Bytes)

def decodeDNSConfig (record : Record) (localZone : Text) : Except ApplyError DNSConfig :=
  match record.validate sha256 with
  | .error err => .error (.record err)
  | .ok _ =>
    if record.name ≠ dnsConfigName then .error .name
    else if record.version.schema ≠ dnsConfigSchema then .error .schema
    else
      match decodeJSON record.value with
      | none => .error .json
      | some dnsConfig => (validateDNSConfig N dnsConfig localZone).mapError .config

def applyConfig (d : DNS) (record : Record) : Except ApplyError Unit × DNS :=
  match decodeDNSConfig sha256 decodeJSON N record d.domain with
  | .error err => (.error err, d)
  | .ok dnsConfig =>
    let view := buildView N parseIP d.domain d.email dnsConfig record
    match d.view with
    | none => (.ok (), { d with view := some view })
    | some previous =>
      match record.compareVersion previous.version with
      | .error err => (.error (.version err), d)
      | .ok order => if order ≠ .gt then (.ok (), d) else (.ok (), { d with view := some view })

def DNS.fresh (domain email : Text) : DNS := ⟨N.canonicalName domain, email, none⟩

def applyAll (d : DNS) (records : List Record) : DNS :=
  records.foldl (fun d record => (applyConfig sha256 decodeJSON N parseIP d record).2) d

end Apply

end Specter.Dns

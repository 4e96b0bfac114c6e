import Mathlib.Algebra.GroupWithZero.Nat
import Mathlib.Data.Char
import Mathlib.Data.List.Lex
import Mathlib.Data.List.Sort

/-!
# The configuration of the DNS server

A configuration is validated into a canonical copy: names in lower case with a dot at the end,
addresses as the library writes them, everything sorted.  Texts are lists of characters.
-/

namespace Specter.Dns

abbrev Text := List Char

def byteLen (s : Text) : ℕ := (s.map Char.utf8Size).sum

/-- `strings.TrimSuffix` of a dot. -/
def trimDot (s : Text) : Text := if s.getLast? = some '.' then s.dropLast else s

def hostnameChar (c : Char) : Bool :=
  ('a' ≤ c && c ≤ 'z') || ('0' ≤ c && c ≤ '9') || c = '-'

def labelError (label : Text) : Option String :=
  if label.length = 0 ∨ byteLen label > 63 ∨ label.head? = some '-' ∨ label.getLast? = some '-' then
    some "must contain DNS labels of 1 to 63 characters without leading or trailing hyphens"
  else if label.any (!hostnameChar ·) then
    some "must contain only ASCII letters, digits, hyphens, and dots"
  else none

structure Netip (Addr : Type) where
  parseAddr : Text → Option Addr
  zone : Addr → Text
  unmap : Addr → Addr
  string : Addr → Text

/-- What is documented: an address is written so that it can be read, `Unmap` removes the prefix of
a mapped IPv4 address or leaves an address as it is, and adds no zone. -/
structure Netip.Documented {Addr : Type} (N : Netip Addr) : Prop where
  parseAddr_string : ∀ a, N.parseAddr (N.string a) = some a
  unmap_unmap : ∀ a, N.unmap (N.unmap a) = N.unmap a
  zone_unmap : ∀ a, N.zone a = [] → N.zone (N.unmap a) = []

/-- With the part of `miekg/dns` that is used: `CanonicalName` and `IsSubDomain`. -/
structure Libraries (Addr : Type) extends Netip Addr where
  canonicalName : Text → Text
  isSubDomain : Text → Text → Bool

/-- A canonical name is in lower case and fully qualified, and only ASCII letters are affected: a
dot is added if there is none at the end, or if a backslash escapes it. -/
structure Libraries.Documented {Addr : Type} (N : Libraries Addr) : Prop
    extends N.toNetip.Documented where
  canonicalName_cases : ∀ s, N.canonicalName s = s.map Char.toLower ∨
    N.canonicalName s = s.map Char.toLower ++ ['.']
  canonicalName_eq : ∀ s, '\\' ∉ s → N.canonicalName s = (trimDot s).map Char.toLower ++ ['.']

structure DNSNameserver where
  host : Text
  addresses : List Text
  deriving DecidableEq

structure DNSConfig where
  zone : Text
  nameservers : List DNSNameserver
  deriving DecidableEq

inductive ConfigError where
  /-- `DNSConfigError`. -/
  | field (field message : String)
  | localZone (err : String)
  deriving DecidableEq, Repr

def sortStrings (l : List Text) : List Text := l.insertionSort (· ≤ ·)

/-- `sort.Slice` by the hosts. -/
def sortHosts (l : List DNSNameserver) : List DNSNameserver :=
  l.insertionSort fun a b => a.host ≤ b.host

section Validate

variable {Addr : Type} [DecidableEq Addr] (N : Libraries Addr)

def dnsConfigHostname (value : Text) : Except String Text :=
  let name := N.canonicalName value
  if byteLen name > 254 ∨ name = ['.'] then .error "must be a DNS hostname"
  else
    match ((trimDot name).splitOn '.').findSome? labelError with
    | some err => .error err
    | none =>
      if (N.parseAddr (trimDot name)).isSome then
        .error "must be a DNS hostname, not an IP address"
      else .ok name

/-- The addresses from the `j`-th on, with those already seen. -/
def validateAddresses (field : String) : ℕ → List Addr → List Text → Except ConfigError (List Text)
  | _, _, [] => .ok []
  | j, seen, raw :: rest =>
    let field' := field ++ ".addresses." ++ toString j
    let invalid := "must be an IPv4 or IPv6 address without a port or zone"
    match N.parseAddr raw with
    | none => .error (.field field' invalid)
    | some address =>
      if N.zone address ≠ [] then .error (.field field' invalid)
      else
        let address := N.unmap address
        if address ∈ seen then
          .error (.field field' "address is listed more than once for this nameserver")
        else do
          let addresses ← validateAddresses field (j + 1) (address :: seen) rest
          return N.string address :: addresses

def validateNameserver (field : String) (hosts : List Text) (ns : DNSNameserver) :
    Except ConfigError DNSNameserver :=
  match dnsConfigHostname N ns.host with
  | .error err => .error (.field (field ++ ".host") err)
  | .ok host =>
    if host ∈ hosts then
      .error (.field (field ++ ".host") "nameserver is listed more than once")
    else if ns.addresses.length = 0 then
      .error (.field (field ++ ".addresses") "at least one IP address is required")
    else do
      let addresses ← validateAddresses N field 0 [] ns.addresses
      return ⟨host, sortStrings addresses⟩

/-- The nameservers from the `i`-th on, with the hosts already seen. -/
def validateNameservers : ℕ → List Text → List DNSNameserver →
    Except ConfigError (List DNSNameserver)
  | _, _, [] => .ok []
  | i, hosts, ns :: rest => do
    let validated ← validateNameserver N ("nameservers." ++ toString i) hosts ns
    let others ← validateNameservers (i + 1) (validated.host :: hosts) rest
    return validated :: others

/-- The check against a local zone, which an initializer leaves empty. -/
def checkLocalZone (zone localZone : Text) : Except ConfigError Unit :=
  if localZone = [] then .ok ()
  else
    match dnsConfigHostname N localZone with
    | .error err => .error (.localZone err)
    | .ok localName =>
      if zone ≠ localName then
        .error (.field "zone" ("must match the local ACME zone " ++ String.ofList localName))
      else .ok ()

def validateDNSConfig (dnsConfig : DNSConfig) (localZone : Text) : Except ConfigError DNSConfig :=
  match dnsConfigHostname N dnsConfig.zone with
  | .error err => .error (.field "zone" err)
  | .ok zone => do
    checkLocalZone N zone localZone
    if dnsConfig.nameservers.length = 0 then
      .error (.field "nameservers" "at least one nameserver is required")
    else
      let nameservers ← validateNameservers N 0 [] dnsConfig.nameservers
      return ⟨zone, sortHosts nameservers⟩

end Validate

end Specter.Dns

import Specter.Ring

/-!
# The hostnames of a proxied request

The gateway checks that the authority of a request has a route, has the firewall inspect it, and
dials the client that serves it.  Each takes the hostname from the authority anew.  Hosts are lists
of characters.  What is an IP address and what letters are in lower case is given.
-/

namespace Specter.Gateway

abbrev Host := List Char

local instance : LawfulBEq Host := inferInstance

/-- The parts before and after the last `c`. -/
def cutLast (c : Char) (l : Host) : Option (Host × Host) :=
  match l.reverse.dropWhile (· ≠ c) with
  | [] => none
  | _ :: before => some (before.reverse, (l.reverse.takeWhile (· ≠ c)).reverse)

def isDigit (c : Char) : Bool := '0' ≤ c && c ≤ '9'

/-- Without the brackets around it. -/
def trimBrackets (host : Host) : Host :=
  if host.head? = some '[' ∧ host.getLast? = some ']' then host.tail.dropLast else host

/-- `net/url`: a port is a colon and digits at the end, and brackets are removed. -/
def splitHostPort (hostPort : Host) : Host × Host :=
  match cutLast ':' hostPort with
  | some (host, port) =>
    if port.all isDigit then (trimBrackets host, port) else (trimBrackets hostPort, [])
  | none => (trimBrackets hostPort, [])

def hostname (host : Host) : Host := (splitHostPort host).1

def port (host : Host) : Host := (splitHostPort host).2

def joinHostPort (host port : Host) : Host :=
  if ':' ∈ host then '[' :: (host ++ ']' :: ':' :: port) else host ++ ':' :: port

/-- `net.SplitHostPort`; `none` is an error. -/
def netSplitHostPort (hostPort : Host) : Option (Host × Host) :=
  match cutLast ':' hostPort with
  | none => none
  | some (before, port) =>
    match hostPort with
    | '[' :: inner =>
      match inner.dropWhile (· ≠ ']') with
      | [] => none
      | _ :: rest =>
        if rest = ':' :: port ∧ '[' ∉ inner ∧ ']' ∉ rest then
          some (inner.takeWhile (· ≠ ']'), port)
        else none
    | _ => if ':' ∈ before ∨ '[' ∈ hostPort ∨ ']' ∈ hostPort then none else some (before, port)

structure Request where
  protoMajor : ℕ
  tls : Option Host
  host : Host
  deriving DecidableEq

def effectiveRequestHost (r : Request) : Host :=
  match r.tls with
  | some serverName => hostname (if r.protoMajor < 2 then serverName else r.host)
  | none => hostname r.host

inductive HostError where
  | isIP
  | tooFewLabels
  | invalid
  /-- The address has no host and port. -/
  | address
  deriving DecidableEq, Repr

structure GatewayConfig where
  rootDomains : List Host
  /-- The hostnames that the route check knows to have no destination. -/
  notFound : Host → Bool
  /-- The firewall is enabled, and refuses a request without a hostname. -/
  inspects : Bool

section

variable (parseIP : Host → Bool) (toLower : Char → Char) (g : GatewayConfig)

def extractHostname (host : Host) : Except HostError Host :=
  if parseIP host then .error .isIP
  else if host.count '.' < 2 then .error .tooFewLabels
  else
    match host.dropWhile (· ≠ '.') with
    | [] => .error .invalid
    | _ :: rest =>
      .ok ((if rest ∈ g.rootDomains then host.takeWhile (· ≠ '.') else host).map toLower)

def handshakeEarlyHint (hint : Bool) (sni : Host) : Option Host :=
  if !hint then none
  else
    match extractHostname parseIP toLower g sni with
    | .error _ => none
    | .ok hostname => if hostname ∈ g.rootDomains then none else some hostname

def parseAddr (addr : Host) : Except HostError Host :=
  match netSplitHostPort addr with
  | none => .error .address
  | some (host, _) => extractHostname parseIP toLower g host

/-- The address that the transport dials for the host of the outgoing URL. -/
def dialAddr (urlHost : Host) : Host :=
  joinHostPort (hostname urlHost) (if port urlHost = [] then "443".toList else port urlHost)

structure Names where
  checked : Option Host
  inspected : Option Host
  dialed : Host
  deriving DecidableEq

/-- The handler of a request; `none` is one that is answered without being forwarded. -/
def applicationHandler (r : Request) : Option Names :=
  let host := effectiveRequestHost r
  let checked := (extractHostname parseIP toLower g host).toOption
  if checked.any g.notFound then none
  else
    let r := { r with host }
    let inspected := (extractHostname parseIP toLower g (effectiveRequestHost r)).toOption
    if g.inspects && inspected.isNone then none
    else
      match parseAddr parseIP toLower g (dialAddr (effectiveRequestHost r)) with
      | .error _ => none
      | .ok dialed => some ⟨checked, inspected, dialed⟩

inductive Alpn where
  | http
  | tcp
  deriving DecidableEq, Repr

inductive Destination where
  | closed
  | apex
  /-- The streams are forwarded to the client of a hostname. -/
  | forward (hostname : Except HostError Host)
  | http
  /-- The multiplexer fails, and the connection is left alone. -/
  | dropped
  deriving DecidableEq

def handleH3Connection (serverName : Host) (proto : Alpn) : Destination :=
  if serverName.length = 0 then .closed
  else if serverName ∈ g.rootDomains then .apex
  else
    match proto with
    | .tcp => .forward (extractHostname parseIP toLower g serverName)
    | .http => .http

def handleH2Connection (handshake : Bool) (serverName : Host) (proto : Alpn) (session : Bool) :
    Destination :=
  if !handshake then .closed
  else if serverName.length = 0 then .closed
  else if serverName ∈ g.rootDomains then .apex
  else
    match proto with
    | .tcp => if session then .forward (extractHostname parseIP toLower g serverName) else .dropped
    | .http => .http

end

end Specter.Gateway

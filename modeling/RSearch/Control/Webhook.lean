import Mathlib.Data.List.Basic
import Mathlib.Tactic.Tauto

/-!
# Webhooks

`post_json` looks up the host of a webhook, refuses if an answer is not a public address, and then hands
the URL to the HTTP client, which looks the host up again.  The two parsers, the name service (each
lookup may answer differently) and the client's choice of an address are parameters.
-/

namespace RSearch.Webhook

structure Ipv4Addr where
  (a b c d : UInt8)
  deriving DecidableEq

namespace Ipv4Addr

variable (ip : Ipv4Addr)

def isLoopback : Bool := ip.a == 127

def isPrivate : Bool :=
  ip.a == 10 || (ip.a == 172 && 16 ≤ ip.b && ip.b ≤ 31) || (ip.a == 192 && ip.b == 168)

def isLinkLocal : Bool := ip.a == 169 && ip.b == 254

def isUnspecified : Bool := ip == ⟨0, 0, 0, 0⟩

def isMulticast : Bool := 224 ≤ ip.a && ip.a ≤ 239

def isBroadcast : Bool := ip == ⟨255, 255, 255, 255⟩

/-- **Neither loopback, private, link-local, unspecified nor multicast.** -/
def Public : Prop :=
  (ip.isLoopback || ip.isPrivate || ip.isLinkLocal || ip.isUnspecified || ip.isMulticast) = false

end Ipv4Addr

structure Ipv6Addr where
  (s₀ s₁ s₂ s₃ s₄ s₅ s₆ s₇ : UInt16)
  deriving DecidableEq

namespace Ipv6Addr

variable (ip : Ipv6Addr)

def isLoopback : Bool := ip == ⟨0, 0, 0, 0, 0, 0, 0, 1⟩

def isUnspecified : Bool := ip == ⟨0, 0, 0, 0, 0, 0, 0, 0⟩

def isMulticast : Bool := ip.s₀ &&& 0xff00 == 0xff00

def isUniqueLocal : Bool := ip.s₀ &&& 0xfe00 == 0xfc00

def isUnicastLinkLocal : Bool := ip.s₀ &&& 0xffc0 == 0xfe80

/-- The IPv4 address in `::a.b.c.d` or `::ffff:a.b.c.d`. -/
def toIpv4 : Option Ipv4Addr :=
  if ip.s₀ = 0 ∧ ip.s₁ = 0 ∧ ip.s₂ = 0 ∧ ip.s₃ = 0 ∧ ip.s₄ = 0 ∧ (ip.s₅ = 0 ∨ ip.s₅ = 0xffff) then
    some ⟨(ip.s₆ >>> 8).toUInt8, ip.s₆.toUInt8, (ip.s₇ >>> 8).toUInt8, ip.s₇.toUInt8⟩
  else none

end Ipv6Addr

inductive IpAddr where
  | v4 (ip : Ipv4Addr)
  | v6 (ip : Ipv6Addr)
  deriving DecidableEq

namespace IpAddr

/-- The IPv4 address that an IPv6 address embeds. -/
def embedded : IpAddr → Option Ipv4Addr
  | v4 _ => none
  | v6 ip => ip.toIpv4

/-- **A public address**, and so is the IPv4 address that it embeds. -/
def Public (ip : IpAddr) : Prop :=
  match ip with
  | v4 ip => ip.Public
  | v6 ip => (ip.isLoopback || ip.isUniqueLocal || ip.isUnicastLinkLocal || ip.isUnspecified ||
      ip.isMulticast) = false ∧ ∀ e ∈ ip.toIpv4, e.Public

/-- What `guard_addr` refuses. -/
def blocked : IpAddr → Bool
  | v4 ip => ip.isLoopback || ip.isPrivate || ip.isLinkLocal || ip.isUnspecified || ip.isMulticast ||
      ip.isBroadcast || (ip.a == 169 && ip.b == 254)
  | v6 ip => ip.isLoopback || ip.isUnspecified || ip.isMulticast || ip.isUniqueLocal ||
      ip.isUnicastLinkLocal

/-- **What the guard looks at, and what it does not**: the broadcast address, and embedded addresses. -/
theorem public_iff (ip : IpAddr) : ip.Public ↔
    (ip.blocked = false ∨ ip = v4 ⟨255, 255, 255, 255⟩) ∧ ∀ e ∈ ip.embedded, e.Public := by
  cases ip with
  | v4 ip =>
    have hbroadcast : ip.isBroadcast = true → ip.Public := by
      intro h
      rw [of_decide_eq_true h]
      rfl
    simp only [Public, blocked, embedded, Ipv4Addr.Public, Ipv4Addr.isBroadcast, Ipv4Addr.isLinkLocal,
      Bool.or_eq_false_iff, Option.mem_def, reduceCtorEq, false_imp_iff, implies_true, and_true, v4.injEq,
      beq_eq_false_iff_ne, ne_eq, beq_iff_eq] at hbroadcast ⊢
    tauto
  | v6 ip =>
    simp only [Public, blocked, embedded, Bool.or_eq_false_iff, reduceCtorEq, or_false]
    tauto

end IpAddr

/-- The host and the port of a URL. -/
structure Target where
  host : Option String
  port : Option ℕ

/-- **The surroundings of a call.**  `answers n` is the `n`-th lookup: the name service may answer the
second one differently from the first. -/
structure Surroundings where
  parseUrl : String → Except String Target
  parseUri : String → Except String (String × ℕ)
  literal : String → Option IpAddr
  answers : ℕ → String → ℕ → Except String (List IpAddr)
  display : IpAddr → String

namespace Surroundings

variable (E : Surroundings)

/-- A literal address is not looked up. -/
def lookupHost (n : ℕ) (host : String) (port : ℕ) : Except String (List IpAddr) :=
  match E.literal host with
  | some ip => .ok [ip]
  | none => E.answers n host port

def guardAddr (ip : IpAddr) : Except String Unit :=
  if ip.blocked then
    let name := E.display ip
    .error s!"webhook host {name} is not a routable public address"
  else .ok ()

/-- The check at the time of sending. -/
def guardUrl (url : String) : Except String Unit := do
  let parsed ← E.parseUrl url
  match parsed.host with
  | none => .ok ()
  | some host =>
      let addrs ← E.lookupHost 0 host (parsed.port.getD 443)
      addrs.forM E.guardAddr

/-- The client takes the brackets off a literal address. -/
def unbracketed (host : String) : String :=
  ((host.dropWhile (· == '[')).dropEndWhile (· == ']')).toString

section Client

-- Out of the addresses that it has looked up, those to which the client opens a connection.
variable (dial : List IpAddr → List IpAddr)

/-- The client looks the host up again, whatever the check has seen. -/
def connect (url : String) : Except String (List IpAddr) := do
  let (host, port) ← E.parseUri url
  let addrs ← E.lookupHost 1 (unbracketed host) port
  return dial addrs

/-- **`post_json`**: the addresses to which connections are opened. -/
def postJson (allowInsecure : Bool) (url : String) : Except String (List IpAddr) := do
  if allowInsecure then E.connect dial url
  else
    E.guardUrl url
    E.connect dial url

theorem postJson_eq_ok_iff {url : String} {opened : List IpAddr} :
    E.postJson dial false url = .ok opened ↔
      E.guardUrl url = .ok () ∧ E.connect dial url = .ok opened := by
  cases hguard : E.guardUrl url <;> simp [postJson, hguard, bind, Except.bind]

theorem connect_eq_ok_iff {url : String} {opened : List IpAddr} :
    E.connect dial url = .ok opened ↔ ∃ host port addrs, E.parseUri url = .ok (host, port) ∧
      E.lookupHost 1 (unbracketed host) port = .ok addrs ∧ dial addrs = opened := by
  cases huri : E.parseUri url with
  | error e => simp [connect, huri, bind, Except.bind]
  | ok uri =>
    obtain ⟨host, port⟩ := uri
    simp only [connect, huri, bind, Except.bind, pure, Except.pure, Except.ok.injEq, Prod.mk.injEq]
    constructor
    · intro h
      cases hlookup : E.lookupHost 1 (unbracketed host) port with
      | error e => simp [hlookup] at h
      | ok addrs => exact ⟨host, port, addrs, ⟨rfl, rfl⟩, hlookup, by simpa [hlookup] using h⟩
    · rintro ⟨_, _, addrs, ⟨rfl, rfl⟩, hlookup, rfl⟩
      simp [hlookup]

end Client

theorem guardAddrs_eq_ok_iff {addrs : List IpAddr} :
    forM addrs E.guardAddr = .ok () ↔ ∀ ip ∈ addrs, ip.blocked = false := by
  induction addrs with
  | nil => simp [pure, Except.pure]
  | cons ip addrs ih =>
    rw [List.forM_cons, List.forall_mem_cons, ← ih, guardAddr]
    cases ip.blocked <;> simp [bind, Except.bind]

/-- The host of the URL, if it has one, is looked up without failure, and the guard passes each address
of that first answer. -/
def FirstPasses (parsed : Target) : Prop :=
  ∀ host ∈ parsed.host, ∃ addrs, E.lookupHost 0 host (parsed.port.getD 443) = .ok addrs ∧
    ∀ ip ∈ addrs, ip.blocked = false

theorem guardUrl_eq_ok_iff {url : String} :
    E.guardUrl url = .ok () ↔ ∃ parsed, E.parseUrl url = .ok parsed ∧ E.FirstPasses parsed := by
  cases hurl : E.parseUrl url with
  | error e => simp [guardUrl, hurl, bind, Except.bind]
  | ok parsed =>
    simp only [guardUrl, hurl, bind, Except.bind, Except.ok.injEq, exists_eq_left', FirstPasses]
    cases parsed.host with
    | none => simp
    | some host =>
      cases hlookup : E.lookupHost 0 host (parsed.port.getD 443) <;>
        simp [hlookup, E.guardAddrs_eq_ok_iff]

/-- **The condition on the two lookups**: when the first one has nothing that the guard blocks, the second
one has nothing that it would block (but for the broadcast address), and in none of its addresses an IPv4
address is embedded that is not public. -/
def LookupsAgree (url : String) : Prop :=
  ∀ parsed, E.parseUrl url = .ok parsed → E.FirstPasses parsed →
    ∀ host port addrs, E.parseUri url = .ok (host, port) →
      E.lookupHost 1 (unbracketed host) port = .ok addrs → ∀ ip ∈ addrs,
        (ip.blocked = false ∨ ip = .v4 ⟨255, 255, 255, 255⟩) ∧ ∀ e ∈ ip.embedded, e.Public

/-- **Every connection goes to a public address**, whichever of the addresses of its lookup the client
dials, **if and only if** the lookups meet `LookupsAgree`: the guard itself sees the first answer only. -/
theorem connections_public_iff (url : String) :
    (∀ dial : List IpAddr → List IpAddr, (∀ addrs, dial addrs ⊆ addrs) →
      ∀ opened, E.postJson dial false url = .ok opened → ∀ ip ∈ opened, ip.Public) ↔
      E.LookupsAgree url := by
  simp only [postJson_eq_ok_iff, guardUrl_eq_ok_iff, connect_eq_ok_iff]
  constructor
  · intro h parsed hurl hfirst host port addrs huri hlookup ip hip
    -- a client that dials all it has found
    exact (IpAddr.public_iff ip).mp
      (h id (fun _ => List.Subset.refl _) addrs ⟨⟨parsed, hurl, hfirst⟩, host, port, addrs, huri, hlookup, rfl⟩
        ip hip)
  · rintro h dial hdial opened ⟨⟨parsed, hurl, hfirst⟩, host, port, addrs, huri, hlookup, rfl⟩ ip hip
    exact (IpAddr.public_iff ip).mpr
      (h parsed hurl hfirst host port addrs huri hlookup ip (hdial addrs hip))

end Surroundings

/-- The first lookup answers with a public address, the second with the one of the machine itself. -/
def rebinding : Surroundings where
  parseUrl _ := .ok ⟨some "hooks.example", none⟩
  parseUri _ := .ok ("hooks.example", 443)
  literal _ := none
  answers n _ _ := .ok [.v4 (if n = 0 then ⟨93, 184, 216, 34⟩ else ⟨127, 0, 0, 1⟩)]
  display _ := ""

/-- Both lookups answer with an IPv6 address that embeds the one of the machine itself. -/
def mapped : Surroundings :=
  { rebinding with answers := fun _ _ _ => .ok [.v6 ⟨0, 0, 0, 0, 0, 0xffff, 0x7f00, 1⟩] }

/-- **A name that is bound anew between the lookups, and an embedded address, lead to the machine itself.** -/
theorem webhook_reaches_loopback :
    (∃ opened, rebinding.postJson id false "https://hooks.example/" = .ok opened ∧
      ∃ ip ∈ opened, ¬ ip.Public) ∧
    ∃ opened, mapped.postJson id false "https://hooks.example/" = .ok opened ∧ ∃ ip ∈ opened, ¬ ip.Public := by
  refine ⟨⟨_, rfl, _, List.mem_singleton_self _, ?_⟩, ⟨_, rfl, _, List.mem_singleton_self _, ?_⟩⟩
  · simp [IpAddr.Public, Ipv4Addr.Public, Ipv4Addr.isLoopback]
  · rintro ⟨-, hembedded⟩
    exact absurd (hembedded ⟨127, 0, 0, 1⟩ rfl) (by simp [Ipv4Addr.Public, Ipv4Addr.isLoopback])

end RSearch.Webhook
